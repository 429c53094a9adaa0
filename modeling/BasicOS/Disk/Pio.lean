import BasicOS.Lib.Ata
import BasicOS.Disk.Transfer

/-! The disk driver, against the drive.

`disk_read_sector` programs an ATA drive and copies what it sends, word by word; the boot loader's
`ata_lba_read` is a second driver in assembly. However long the drive takes before each sector,
both leave the bytes of the disk in the buffer and the drive idle (`diskReadSector_reads`), for
every 28-bit sector number and up to 256 sectors; and they do the same to the drive and to
memory (`ataLbaRead_eq`). So a read of a stream, through the driver and the drive, delivers the
bytes of the disk (`diskstreamer_over_ata`). -/
namespace BasicOS
open Lib

/-! ### The driver -/

/-- `while (!(c & 0x08)) c = insb(0x1F7);` in so many looks. -/
def awaitData : Nat → Ata → Option Ata
  | 0, _ => none
  | polls + 1, d =>
    let (c, d) := d.status
    if c &&& 0x08 = 0 then awaitData polls d else some d

/-- The words that are left of a sector, to `ptr` on. -/
def copyWords : Nat → Nat → Ata → Memory → Ata × Memory
  | 0, _, d, m => (d, m)
  | n + 1, ptr, d, m =>
    let (w, d) := d.data
    copyWords n (ptr + 2) d (store m ptr [UInt8.ofNat w, UInt8.ofNat (w / 2 ^ 8)])

/-- The sectors that are left. -/
def copySectors (polls : Nat) : Nat → Nat → Ata → Memory → Option (Ata × Memory)
  | 0, _, d, m => some (d, m)
  | total + 1, ptr, d, m => do
    let d ← awaitData polls d
    let (d, m) := copyWords 256 ptr d m
    copySectors polls total (ptr + 512) d m

/-- `disk_read_sector`, which looks at the status at most `polls` times for a sector. -/
def diskReadSector (polls lba total buffer : Nat) (d : Ata) (m : Memory) : Option (Int × Ata × Memory) := do
  let d := d.out 0x1F6 (lba / 2 ^ 24 ||| 0xE0)
  let d := d.out 0x1F2 total
  let d := d.out 0x1F3 (lba &&& 0xFF)
  let d := d.out 0x1F4 (lba / 2 ^ 8)
  let d := d.out 0x1F5 (lba / 2 ^ 16)
  let d := d.out 0x1F7 0x20
  let (d, m) ← copySectors polls total buffer d m
  return (0, d, m)

/-! ### One sector -/

variable {d : Ata} {m : Memory}

theorem awaitData_spec (hleft : d.left ≠ 0) {polls : Nat} (hpolls : d.busy < polls) :
    awaitData polls d = some {d with busy := 0} := by
  induction polls generalizing d with
  | zero => omega
  | succ polls ih =>
    unfold awaitData
    by_cases hbusy : d.busy = 0
    · rw [Ata.status_data hleft hbusy]
      simp only [show 0x58 &&& 0x08 = 8 by decide]
      rw [if_neg (by decide), ← hbusy]
    · rw [Ata.status_busy hleft hbusy]
      simp only [show 0x80 &&& 0x08 = 0 by decide, if_true]
      exact ih hleft (by simp only; omega)

/-- A word of the disk is two of its bytes. -/
theorem read16_bytes (disk : Memory) (a : Nat) :
    [UInt8.ofNat (read16 disk a), UInt8.ofNat (read16 disk a / 2 ^ 8)] = diskBytes disk a 2 := by
  have h0 := (disk a).toNat_lt
  have h1 := (disk (a + 1)).toNat_lt
  have hlow : UInt8.ofNat (read16 disk a) = disk a := by
    refine UInt8.toNat_inj.mp ?_
    rw [UInt8.toNat_ofNat', read16]
    omega
  have hhigh : UInt8.ofNat (read16 disk a / 2 ^ 8) = disk (a + 1) := by
    refine UInt8.toNat_inj.mp ?_
    rw [UInt8.toNat_ofNat', read16]
    omega
  rw [hlow, hhigh]
  rfl

theorem diskBytes_add (disk : Memory) (a k n : Nat) :
    diskBytes disk a (k + n) = diskBytes disk a k ++ diskBytes disk (a + k) n := by
  unfold diskBytes
  rw [List.range_add, List.map_append, List.map_map]
  congr 1
  apply List.map_congr_left
  intro i _
  rw [Function.comp, Nat.add_assoc]

/-- The rest of a sector, and the drive turns to the next. -/
theorem copyWords_spec {n : Nat} (hleft : d.left ≠ 0) (hbusy : d.busy = 0) (hn : d.word + (n + 1) = 256) (ptr : Nat) :
    copyWords (n + 1) ptr d m =
      (d.nextSector, store m ptr (diskBytes d.disk (ataSectorSize * d.lba + 2 * d.word) (2 * (n + 1)))) := by
  induction n generalizing d m ptr with
  | zero =>
    unfold copyWords
    rw [Ata.data_last hleft hbusy (by omega)]
    simp only [copyWords, read16_bytes, Nat.zero_add, Nat.mul_one]
  | succ n ih =>
    unfold copyWords
    rw [Ata.data_word hleft hbusy (by omega)]
    simp only [read16_bytes]
    rw [ih (d := {d with word := d.word + 1}) hleft hbusy (by simp only; omega)]
    simp only [Nat.mul_add, Nat.mul_one]
    have hsplit : diskBytes d.disk (ataSectorSize * d.lba + 2 * d.word) (2 * n + 2 + 2) =
        diskBytes d.disk (ataSectorSize * d.lba + 2 * d.word) 2 ++
          diskBytes d.disk (ataSectorSize * d.lba + 2 * d.word + 2) (2 * n + 2) := by
      rw [Nat.add_comm (2 * n + 2) 2, diskBytes_add]
    rw [hsplit, ← store_append, length_diskBytes, Nat.add_assoc (ataSectorSize * d.lba)]
    rfl

/-! ### The whole read -/

/-- The drive sends what is left, and the driver waits for every sector. -/
theorem copySectors_spec {disk : Memory} {lba total polls : Nat} (hsending : d.Sending disk lba total)
    (hbusy : total ≠ 0 → d.busy = d.delay d.served) (hpolls : ∀ i < total, d.delay (d.served + i) < polls) (ptr : Nat) :
    ∃ d', copySectors polls total ptr d m = some (d', store m ptr (diskBytes disk (512 * lba) (512 * total))) ∧
      d'.Idle ∧ d'.disk = disk ∧ d'.delay = d.delay ∧ d'.served = d.served + total := by
  induction total generalizing d m lba ptr with
  | zero =>
    refine ⟨d, ?_, hsending.left, hsending.disk, rfl, rfl⟩
    rw [copySectors, Nat.mul_zero, show diskBytes disk (512 * lba) 0 = [] from rfl, store_nil]
  | succ total ih =>
    have hleft : d.left ≠ 0 := by
      rw [hsending.left]
      exact Nat.succ_ne_zero total
    have hfirst : d.busy < polls := by
      rw [hbusy (Nat.succ_ne_zero total)]
      exact hpolls 0 (Nat.succ_pos total)
    have hwait := awaitData_spec hleft hfirst
    have hready : ({d with busy := 0} : Ata).Sending disk lba (total + 1) :=
      ⟨hsending.disk, hsending.lba, hsending.left, hsending.word⟩
    have hfree : ({d with busy := 0} : Ata).busy = 0 := rfl
    have hserved : ({d with busy := 0} : Ata).served = d.served ∧ ({d with busy := 0} : Ata).delay = d.delay := ⟨rfl, rfl⟩
    generalize ({d with busy := 0} : Ata) = ready at *
    have hcopy := copyWords_spec (m := m) (n := 255) (by rw [hready.left]; exact Nat.succ_ne_zero total) hfree
      (by rw [hready.word]) ptr
    rw [hready.disk, hready.lba, hready.word] at hcopy
    obtain ⟨d', hrest, hidle, hdisk, hdelay, hserved'⟩ := ih (m := store m ptr (diskBytes disk (512 * lba) 512))
      hready.nextSector (fun _ => rfl)
      (fun i hi => by
        show ready.delay (ready.served + 1 + i) < polls
        rw [hserved.1, hserved.2, Nat.add_assoc]
        exact hpolls (1 + i) (by omega))
      (ptr + 512)
    refine ⟨d', ?_, hidle, hdisk, hdelay.trans hserved.2, ?_⟩
    · unfold copySectors
      rw [hwait]
      simp only [Option.bind_eq_bind, Option.bind_some, hcopy]
      rw [show 2 * (255 + 1) = 512 from rfl, show ataSectorSize * lba + 2 * 0 = 512 * lba from rfl, hrest,
        Nat.mul_succ 512 total, Nat.add_comm (512 * total) 512, diskBytes_add, ← store_append, length_diskBytes,
        Nat.mul_succ]
    · rw [hserved']
      show ready.served + 1 + total = _
      rw [hserved.1]
      omega

/-- The drive after the six writes, for a sector number of 28 bits. -/
theorem commanded {lba total : Nat} (hlba : lba < 2 ^ 28) (htotal : 1 ≤ total ∧ total ≤ 256) :
    let d' := (((((d.out 0x1F6 (lba / 2 ^ 24 ||| 0xE0)).out 0x1F2 total).out 0x1F3 (lba &&& 0xFF)).out 0x1F4
      (lba / 2 ^ 8)).out 0x1F5 (lba / 2 ^ 16)).out 0x1F7 0x20
    d'.Sending d.disk lba total ∧ d'.busy = d.delay d.served ∧ d'.delay = d.delay ∧ d'.served = d.served := by
  have htop : ∀ h < 16, (h ||| 0xE0) % 2 ^ 8 = h + 0xE0 ∧ (h + 0xE0).testBit 6 = true ∧
      (h + 0xE0).testBit 4 = false := by decide
  obtain ⟨hdevice, hlbaMode, hfirst⟩ := htop (lba / 2 ^ 24) (by omega)
  have hlow : lba &&& 0xFF = lba % 2 ^ 8 := Nat.and_two_pow_sub_one_eq_mod lba 8
  simp only [Ata.out, Ata.readSectors, Ata.portCount, Ata.portLbaLow, Ata.portLbaMid, Ata.portLbaHigh, Ata.portDevice,
    Ata.portCommand, Nat.reduceEqDiff, if_true, if_false, false_and, hdevice, hlow]
  rw [if_pos ⟨trivial, by decide⟩, if_pos ⟨hlbaMode, by rw [hfirst]; rfl⟩]
  refine ⟨⟨rfl, ?_, ?_, rfl⟩, rfl, rfl, rfl⟩
  · simp only
    omega
  · simp only
    split <;> omega

/-- Finitely many delays have a bound. -/
theorem exists_bound (f : Nat → Nat) (n : Nat) : ∃ bound, ∀ i < n, f i < bound := by
  induction n with
  | zero => exact ⟨0, fun i hi => absurd hi (Nat.not_lt_zero i)⟩
  | succ n ih =>
    obtain ⟨bound, hbound⟩ := ih
    refine ⟨max bound (f n + 1), fun i hi => ?_⟩
    rcases Nat.lt_succ_iff_lt_or_eq.mp hi with hi | rfl
    · exact Nat.lt_of_lt_of_le (hbound i hi) (Nat.le_max_left ..)
    · exact Nat.lt_of_lt_of_le (Nat.lt_succ_self _) (Nat.le_max_right ..)

/-- The driver, with enough looks at the status for every sector. -/
theorem diskReadSector_spec {lba total : Nat} (hlba : lba < 2 ^ 28) (htotal : 1 ≤ total ∧ total ≤ 256) {polls : Nat}
    (hpolls : ∀ i < total, d.delay (d.served + i) < polls) (buffer : Nat) : ∃ d',
      diskReadSector polls lba total buffer d m =
        some (0, d', store m buffer (diskBytes d.disk (512 * lba) (512 * total))) ∧
      d'.Idle ∧ d'.disk = d.disk ∧ d'.delay = d.delay ∧ d'.served = d.served + total := by
  obtain ⟨hsending, hbusy, hdelay, hserved⟩ := commanded (d := d) hlba htotal
  unfold diskReadSector
  simp only
  generalize (((((d.out 0x1F6 (lba / 2 ^ 24 ||| 0xE0)).out 0x1F2 total).out 0x1F3 (lba &&& 0xFF)).out 0x1F4
    (lba / 2 ^ 8)).out 0x1F5 (lba / 2 ^ 16)).out 0x1F7 0x20 = c at *
  obtain ⟨d', hcopy, hidle, hdisk, hdelay', hserved'⟩ := copySectors_spec (m := m) hsending
    (fun _ => by rw [hbusy, hdelay, hserved]) (fun i hi => by rw [hdelay, hserved]; exact hpolls i hi) buffer
  refine ⟨d', ?_, hidle, hdisk, hdelay'.trans hdelay, by rw [hserved', hserved]⟩
  rw [hcopy]
  rfl

/-- **The driver reads the disk.** For every sector number of 28 bits, up to 256 sectors and whatever the
drive holds in its registers, there is a number of looks at the status after which, with no matter
how many more allowed, the sectors are in the buffer, nothing else is written, and the drive has
nothing more to send. -/
theorem diskReadSector_reads {lba total : Nat} (hlba : lba < 2 ^ 28) (htotal : 1 ≤ total ∧ total ≤ 256)
    (buffer : Nat) (d : Ata) (m : Memory) : ∃ enough, ∀ polls, enough ≤ polls → ∃ d',
      diskReadSector polls lba total buffer d m =
        some (0, d', store m buffer (diskBytes d.disk (512 * lba) (512 * total))) ∧
      d'.Idle ∧ d'.disk = d.disk := by
  obtain ⟨enough, henough⟩ := exists_bound (fun i => d.delay (d.served + i)) total
  refine ⟨enough, fun polls hpolls => ?_⟩
  obtain ⟨d', hread, hidle, hdisk, _⟩ := diskReadSector_spec (d := d) (m := m) hlba htotal
    (fun i hi => Nat.lt_of_lt_of_le (henough i hi) hpolls) buffer
  exact ⟨d', hread, hidle, hdisk⟩

/-! ### The boot loader's driver -/

/-- `ata_lba_read`: `eax` is the sector number, `ecx` the count and `edi` the buffer. `loop` counts down
before it looks, so that a count of 0 is one of `2 ^ 32`. -/
def ataLbaReadSectors (polls : Nat) : Nat → Nat → Nat → Ata → Memory → Option (Ata × Memory)
  | 0, _, _, _, _ => none
  | turns + 1, ecx, edi, d, m => do
    let d ← awaitData polls d
    let (d, m) := copyWords 256 edi d m
    let ecx := if ecx = 0 then 0xFFFFFFFF else ecx - 1
    if ecx = 0 then some (d, m) else ataLbaReadSectors polls turns ecx (edi + 512) d m

def ataLbaRead (polls eax ecx edi : Nat) (d : Ata) (m : Memory) : Option (Ata × Memory) :=
  let ebx := eax
  let d := d.out 0x1F6 (eax / 2 ^ 24 ||| 0xE0)
  let d := d.out 0x1F2 ecx
  let d := d.out 0x1F3 ebx
  let d := d.out 0x1F4 (ebx / 2 ^ 8)
  let d := d.out 0x1F5 (ebx / 2 ^ 16)
  let d := d.out 0x1F7 0x20
  ataLbaReadSectors polls (if ecx = 0 then 2 ^ 32 else ecx) ecx edi d m

theorem ataLbaReadSectors_eq {total : Nat} (htotal : 1 ≤ total) (hfits : total < 2 ^ 32) (polls ptr : Nat) :
    ataLbaReadSectors polls total total ptr d m = copySectors polls total ptr d m := by
  induction total generalizing ptr d m with
  | zero => omega
  | succ total ih =>
    unfold ataLbaReadSectors copySectors
    rw [if_neg (Nat.succ_ne_zero total), Nat.add_sub_cancel]
    cases awaitData polls d with
    | none => simp only [Option.bind_eq_bind, Option.bind_none]
    | some d₁ =>
      simp only [Option.bind_eq_bind, Option.bind_some]
      generalize copyWords 256 ptr d₁ m = copied
      by_cases hlast : total = 0
      · rw [if_pos hlast, hlast]
        rfl
      · rw [if_neg hlast]
        exact ih (by omega) (by omega) _

/-- Only the low byte of what is written to a port gets there. -/
theorem out_low (port value : Nat) : d.out port (value &&& 0xFF) = d.out port value := by
  unfold Ata.out
  rw [show value &&& 0xFF = value % 2 ^ 8 from Nat.and_two_pow_sub_one_eq_mod value 8, Nat.mod_mod]

/-- **The two drivers are one.** The boot loader's assembly and the kernel's C do the same to the drive
and to memory, whatever they are asked for but nothing. -/
theorem ataLbaRead_eq {total : Nat} (htotal : 1 ≤ total) (hfits : total < 2 ^ 32) (polls lba buffer : Nat) (d : Ata)
    (m : Memory) :
    diskReadSector polls lba total buffer d m = (ataLbaRead polls lba total buffer d m).map fun r => (0, r.1, r.2) := by
  unfold diskReadSector ataLbaRead
  simp only [out_low]
  rw [if_neg (by omega), ataLbaReadSectors_eq htotal hfits]
  cases copySectors polls total buffer _ m <;> rfl

/-! ### Streams -/

/-- The loop of `diskstreamer_read`, with `disk_read_block` through the driver and `buf` on the stack. -/
def Transfer.runOn (polls buf : Nat) : Nat → Transfer → Ata → Memory → Option (Transfer × Ata)
  | 0, s, d, _ => if s.total = 0 then some (s, d) else none
  | turns + 1, s, d, m =>
    if s.total = 0 then some (s, d)
    else do
      let (res, d, m) ← diskReadSector polls (s.pos / diskSectorSize) 1 buf d m
      let t := s.turn fun _ => (res, fun i => m (buf + i))
      if t.res < 0 then some (t, d) else Transfer.runOn polls buf turns t d m

/-- A reader that answers with the sectors themselves. -/
def sectorsOf (disk : Memory) : BlockReader := fun lba => (0, diskReadBlock disk lba)

theorem sectorsOf_serves (disk : Memory) : ServesSectors (sectorsOf disk) disk := fun _ => ⟨rfl, fun _ _ => rfl⟩

/-- A turn on what the driver leaves in the buffer is one on the sector. -/
theorem turn_buffer {s : Transfer} (hleft : s.total ≠ 0) (htotal : s.total < 2 ^ 31) (disk : Memory) (buf : Nat) :
    s.turn (fun _ => (0, fun i => store m buf (diskBytes disk (512 * (s.pos / diskSectorSize)) (512 * 1)) (buf + i))) =
      s.turn (sectorsOf disk) := by
  obtain ⟨_, _, hsector⟩ := Transfer.totalToRead_bounds hleft htotal
  unfold Transfer.turn sectorsOf
  simp only [Int.lt_irrefl, if_false, Transfer.mk.injEq, true_and, List.append_cancel_left_eq]
  refine List.map_congr_left fun i hi => ?_
  have hin : s.pos % diskSectorSize + i < 512 := by
    have := List.mem_range.mp hi
    simp only [diskSectorSize] at *
    omega
  rw [store_at _ _ (by rw [length_diskBytes]; omega), List.getD_eq_getElem?_getD, getElem?_diskBytes _ (by omega),
    Option.getD_some, diskReadBlock, Nat.mul_comm]

theorem runOn_spec {turns polls : Nat} {s : Transfer} (hturns : s.total ≤ turns) (htotal : s.total < 2 ^ 31)
    (hpos : s.pos < 2 ^ 32) (hpolls : ∀ i < s.total, d.delay (d.served + i) < polls) (buf : Nat) :
    ∃ d', Transfer.runOn polls buf turns s d m = (Transfer.run (sectorsOf d.disk) turns s).map fun t => (t, d') := by
  induction turns generalizing s d m with
  | zero =>
    refine ⟨d, ?_⟩
    unfold Transfer.runOn Transfer.run
    split <;> rfl
  | succ turns ih =>
    unfold Transfer.runOn Transfer.run
    by_cases hzero : s.total = 0
    · exact ⟨d, by rw [if_pos hzero, if_pos hzero]; rfl⟩
    · obtain ⟨hprogress, hrequest, _⟩ := Transfer.totalToRead_bounds hzero htotal
      have hturn := Transfer.turn_eq (sectorsOf_serves d.disk) hzero htotal
      have hlba : s.pos / diskSectorSize < 2 ^ 28 := by
        simp only [diskSectorSize]
        omega
      have hone : (1 : Nat) ≤ 1 ∧ 1 ≤ 256 := by decide
      obtain ⟨d₁, hread, _, hdisk, hdelay, hserved⟩ := diskReadSector_spec (d := d) (m := m) hlba hone
        (fun i hi => hpolls i (by omega)) buf
      obtain ⟨d', hrest⟩ := ih (d := d₁)
        (m := store m buf (diskBytes d.disk (512 * (s.pos / diskSectorSize)) (512 * 1)))
        (s := s.turn (sectorsOf d.disk)) (by rw [hturn]; show s.total - s.totalToRead ≤ turns; omega)
        (by rw [hturn]; show s.total - s.totalToRead < 2 ^ 31; omega) (by rw [hturn]; exact u32_lt _)
        (fun i hi => by
          rw [hturn] at hi
          have hmore : 1 + i < s.total := by
            have : i < s.total - s.totalToRead := hi
            omega
          rw [hdelay, hserved, Nat.add_assoc]
          exact hpolls (1 + i) hmore)
      have hgoes : ¬ (s.turn (sectorsOf d.disk)).res < 0 := by
        rw [hturn]
        exact Int.lt_irrefl 0
      refine ⟨d', ?_⟩
      rw [if_neg hzero, if_neg hzero, hread]
      simp only [Option.bind_eq_bind, Option.bind_some, turn_buffer hzero htotal, if_neg hgoes]
      rw [hrest, hdisk]

/-- **A stream reads the disk through the drive.** However long the drive takes, `diskstreamer_read` ends,
and delivers the bytes of the disk from the stream's position on. -/
theorem diskstreamer_over_ata (pos total : Nat) (hpos : pos < 2 ^ 32) (htotal : total < 2 ^ 31) (buf : Nat) (d : Ata)
    (m : Memory) : ∃ enough, ∀ polls, enough ≤ polls → ∀ turns, total ≤ turns → ∃ d',
      Transfer.runOn polls buf turns ⟨0, pos, total, []⟩ d m =
        some (⟨0, u32 (pos + total), 0, streamBytes d.disk pos total⟩, d') := by
  obtain ⟨enough, henough⟩ := exists_bound (fun i => d.delay (d.served + i)) total
  refine ⟨enough, fun polls hpolls turns hturns => ?_⟩
  obtain ⟨d', hrun⟩ := runOn_spec (m := m) (s := ⟨0, pos, total, []⟩) hturns htotal hpos
    (fun i hi => Nat.lt_of_lt_of_le (henough i hi) hpolls) buf
  refine ⟨d', ?_⟩
  rw [hrun, Transfer.run_eq (sectorsOf_serves d.disk) turns hturns htotal hpos rfl]
  rfl

/-- A drive that counts its bytes and takes longer every time. -/
def countingDrive : Ata := ⟨Nat.toUInt8, fun served => 10 * served, 0, 0, 0, 0, 0, 0, 0, 0, 0, 0⟩

theorem diskReadSector_reads_two : ∃ enough, ∀ polls, enough ≤ polls → ∃ d',
    diskReadSector polls 7 2 0x500000 countingDrive (fun _ => 0) =
      some (0, d', store (fun _ => 0) 0x500000 (diskBytes Nat.toUInt8 (512 * 7) (512 * 2))) ∧
    d'.Idle ∧ d'.disk = Nat.toUInt8 :=
  diskReadSector_reads (by decide) (by decide) 0x500000 countingDrive (fun _ => 0)

theorem diskstreamer_over_ata_three : ∃ enough, ∀ polls, enough ≤ polls → ∀ turns, 1000 ≤ turns → ∃ d',
    Transfer.runOn polls 0x5FF000 turns ⟨0, 700, 1000, []⟩ countingDrive (fun _ => 0) =
      some (⟨0, u32 (700 + 1000), 0, streamBytes Nat.toUInt8 700 1000⟩, d') :=
  diskstreamer_over_ata 700 1000 (by decide) (by decide) 0x5FF000 countingDrive (fun _ => 0)

theorem ataLbaRead_eq_boot : diskReadSector 100 2 100 0x100000 countingDrive (fun _ => 0) =
    (ataLbaRead 100 2 100 0x100000 countingDrive (fun _ => 0)).map fun r => (0, r.1, r.2) :=
  ataLbaRead_eq (by decide) (by decide) 100 2 0x100000 countingDrive (fun _ => 0)

end BasicOS

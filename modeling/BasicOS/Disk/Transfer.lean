import BasicOS.Disk.Streamer

/-! A transfer from the disk, turn by turn.

`diskstreamer_read` splits a request at sector boundaries: a turn takes what is left of the
sector its position is in, or what is left of the request. Every turn takes a byte at least
and none goes past its sector, so the loop ends, and what it delivers is the disk from the
position on (`diskstreamerTransfer_delivers`), in one request or in two. The turns go through
whatever answers for `disk_read_block`, which may also fail. -/
namespace BasicOS
open Lib

/-! ### The loop -/

structure DiskStream where
  pos : Nat
deriving DecidableEq, Repr

/-- `disk_read_block` for one sector: its result, and the buffer after it. -/
abbrev BlockReader := Nat → Int × (Nat → UInt8)

/-- The reader answers every sector with its 512 bytes. -/
def ServesSectors (readBlock : BlockReader) (disk : Memory) : Prop :=
  ∀ lba, (readBlock lba).1 = 0 ∧ ∀ i, i < diskSectorSize → (readBlock lba).2 i = diskReadBlock disk lba i

/-- The loop of `diskstreamer_read` between two turns: `total` is what is left to read. -/
structure Transfer where
  res : Int
  pos : Nat
  total : Nat
  out : List UInt8
deriving DecidableEq, Repr

/-- How many bytes a turn reads; `_DISK_SECTOR_SIZE` makes the sums unsigned. -/
def Transfer.totalToRead (s : Transfer) : Nat :=
  let offset := s.pos % diskSectorSize
  let overflow := u32 (offset + s.total) ≥ diskSectorSize
  if overflow then s.total - (u32 (offset + s.total) - diskSectorSize) else s.total

def Transfer.turn (readBlock : BlockReader) (s : Transfer) : Transfer :=
  let sectorNo := s.pos / diskSectorSize
  let offset := s.pos % diskSectorSize
  let (res, buf) := readBlock sectorNo
  if res < 0 then {s with res}
  else {
    res
    pos := u32 (s.pos + s.totalToRead)
    total := s.total - s.totalToRead
    out := s.out ++ (List.range s.totalToRead).map fun i => buf (offset + i) }

/-- The loop in so many turns, if it ends in them. -/
def Transfer.run (readBlock : BlockReader) : Nat → Transfer → Option Transfer
  | 0, s => if s.total = 0 then some s else none
  | turns + 1, s =>
    if s.total = 0 then some s
    else
      let t := s.turn readBlock
      if t.res < 0 then some t else t.run readBlock turns

/-- `diskstreamer_read` in so many turns: its result, the stream after it and what it stored. -/
def diskstreamerTransfer (readBlock : BlockReader) (turns : Nat) (streamer : DiskStream) (total : Nat) :
    Option (Int × DiskStream × List UInt8) :=
  (Transfer.run readBlock turns ⟨0, streamer.pos, total, []⟩).map fun t => (t.res, ⟨t.pos⟩, t.out)

/-! ### One turn -/

variable {readBlock : BlockReader} {disk : Memory} {s : Transfer}

/-- A turn makes progress, and stays in its sector and in the request. -/
theorem Transfer.totalToRead_bounds (hleft : s.total ≠ 0) (htotal : s.total < 2 ^ 31) :
    1 ≤ s.totalToRead ∧ s.totalToRead ≤ s.total ∧ s.pos % diskSectorSize + s.totalToRead ≤ diskSectorSize := by
  have hoffset : s.pos % diskSectorSize < 0x200 := Nat.mod_lt _ (by decide)
  have hsum : u32 (s.pos % diskSectorSize + s.total) = s.pos % diskSectorSize + s.total := u32_of_lt (by omega)
  unfold totalToRead
  simp only [hsum, diskSectorSize] at hoffset ⊢
  split <;> omega

theorem Transfer.turn_eq (h : ServesSectors readBlock disk) (hleft : s.total ≠ 0) (htotal : s.total < 2 ^ 31) :
    s.turn readBlock = ⟨0, u32 (s.pos + s.totalToRead), s.total - s.totalToRead,
      s.out ++ diskBytes disk s.pos s.totalToRead⟩ := by
  obtain ⟨hres, hbytes⟩ := h (s.pos / diskSectorSize)
  obtain ⟨_, _, hsector⟩ := totalToRead_bounds hleft htotal
  have hread : (List.range s.totalToRead).map
      (fun i => (readBlock (s.pos / diskSectorSize)).2 (s.pos % diskSectorSize + i)) =
      diskBytes disk s.pos s.totalToRead := by
    rw [← diskReadBlock_bytes]
    apply List.map_congr_left
    intro i hi
    have hin := List.mem_range.mp hi
    exact hbytes _ (by omega)
  unfold turn
  rw [← hread]
  simp only [hres, if_neg (Int.lt_irrefl 0)]

/-! ### The whole transfer -/

theorem Transfer.run_done (hdone : s.total = 0) (turns : Nat) : s.run readBlock turns = some s := by
  cases turns with
  | zero => rw [run, if_pos hdone]
  | succ turns => rw [run, if_pos hdone]

/-- As many turns as bytes are enough; what they store is the disk, around its end. -/
theorem Transfer.run_eq (h : ServesSectors readBlock disk) (turns : Nat) (hturns : s.total ≤ turns)
    (htotal : s.total < 2 ^ 31) (hpos : s.pos < 2 ^ 32) (hres : s.res = 0) :
    s.run readBlock turns = some ⟨0, u32 (s.pos + s.total), 0, s.out ++ streamBytes disk s.pos s.total⟩ := by
  induction turns generalizing s with
  | zero =>
    obtain ⟨res, pos, total, out⟩ := s
    obtain rfl : total = 0 := Nat.le_zero.mp hturns
    obtain rfl : res = 0 := hres
    have hend : u32 (pos + 0) = pos := u32_of_lt hpos
    rw [run_done rfl, hend]
    simp [streamBytes]
  | succ turns ih =>
    by_cases hzero : s.total = 0
    · rw [run_done hzero]
      rw [← run_done hzero turns]
      exact ih (by omega) htotal hpos hres
    · obtain ⟨hprogress, hrequest, hsector⟩ := totalToRead_bounds hzero htotal
      have hturn := turn_eq h hzero htotal
      -- no sector lies across the end of the position's range
      have hfit : s.pos + s.totalToRead ≤ 2 ^ 32 := by
        simp only [diskSectorSize] at hsector
        omega
      have hsum : u32 (u32 (s.pos + s.totalToRead) + (s.total - s.totalToRead)) = u32 (s.pos + s.total) := by
        rw [u32, u32, Nat.mod_add_mod, Nat.add_assoc, Nat.add_sub_cancel' hrequest, u32]
      have hbytes : diskBytes disk s.pos s.totalToRead ++
          streamBytes disk (u32 (s.pos + s.totalToRead)) (s.total - s.totalToRead) =
            streamBytes disk s.pos s.total := by
        rw [← streamBytes_of_fit disk hfit, ← streamBytes_add, Nat.add_sub_cancel' hrequest]
      have hrest := ih (s := s.turn readBlock) (by rw [hturn]; show s.total - s.totalToRead ≤ turns; omega)
        (by rw [hturn]; show s.total - s.totalToRead < 2 ^ 31; omega) (by rw [hturn]; exact u32_lt _) (by rw [hturn])
      have hgoes : ¬ (s.turn readBlock).res < 0 := by
        rw [hturn]
        exact Int.lt_irrefl 0
      rw [run, if_neg hzero]
      simp only [if_neg hgoes]
      rw [hrest, hturn]
      simp only [hsum, List.append_assoc, hbytes]

theorem diskstreamerTransfer_eq (h : ServesSectors readBlock disk) {turns pos total : Nat} (hturns : total ≤ turns)
    (htotal : total < 2 ^ 31) (hpos : pos < 2 ^ 32) : diskstreamerTransfer readBlock turns ⟨pos⟩ total =
      some (0, ⟨u32 (pos + total)⟩, streamBytes disk pos total) := by
  unfold diskstreamerTransfer
  rw [Transfer.run_eq h turns hturns htotal hpos rfl]
  rfl

/-- The loop without results delivers the same. -/
theorem diskstreamerTransfer_read (h : ServesSectors readBlock disk) {pos total : Nat} (htotal : total < 2 ^ 31)
    (hpos : pos < 2 ^ 32) : ∃ streamer, diskstreamerTransfer readBlock total ⟨pos⟩ total =
      some (0, streamer, (diskstreamerRead disk pos total).1) := by
  refine ⟨⟨u32 (pos + total)⟩, ?_⟩
  rw [diskstreamerTransfer_eq h (Nat.le_refl _) htotal hpos, diskstreamerRead_eq disk total hpos]

/-- **A read of the disk ends, delivers the bytes from its position on and leaves the position
behind them**; two reads deliver what one read of both does. -/
theorem diskstreamerTransfer_delivers (h : ServesSectors readBlock disk) (pos total : Nat) (htotal : total < 2 ^ 31)
    (hfit : pos + total < 2 ^ 32) :
    (∀ turns, total ≤ turns →
      diskstreamerTransfer readBlock turns ⟨pos⟩ total = some (0, ⟨pos + total⟩, diskBytes disk pos total)) ∧
    ∀ a b, a + b = total → ∀ turns, total ≤ turns → ∃ middle first second,
      diskstreamerTransfer readBlock turns ⟨pos⟩ a = some (0, middle, first) ∧
      diskstreamerTransfer readBlock turns middle b = some (0, ⟨pos + total⟩, second) ∧
      first ++ second = diskBytes disk pos total := by
  have hread : ∀ {p n turns}, p + n < 2 ^ 32 → n ≤ total → total ≤ turns →
      diskstreamerTransfer readBlock turns ⟨p⟩ n = some (0, ⟨p + n⟩, diskBytes disk p n) := by
    intro p n turns hpn hn hturns
    rw [diskstreamerTransfer_eq h (by omega) (by omega) (by omega), u32_of_lt hpn, streamBytes_of_fit disk (by omega)]
  refine ⟨fun turns hturns => hread hfit (Nat.le_refl _) hturns, fun a b hab turns hturns => ?_⟩
  refine ⟨⟨pos + a⟩, diskBytes disk pos a, diskBytes disk (pos + a) b, hread (by omega) (by omega) hturns, ?_, ?_⟩
  · rw [hread (by omega) (by omega) hturns, Nat.add_assoc, hab]
  · rw [← streamBytes_of_fit disk (by omega), ← streamBytes_of_fit disk (n := b) (by omega), ← hab,
      ← streamBytes_of_fit disk (by omega), streamBytes_add, u32_of_lt (by omega)]

/-- A disk that counts, read from its fifth byte over two sectors. -/
theorem diskstreamerTransfer_two_sectors :
    diskstreamerTransfer (fun lba => (0, fun i => (lba * 512 + i).toUInt8)) 1000 ⟨5⟩ 600 =
      some (0, ⟨605⟩, diskBytes Nat.toUInt8 5 600) := by
  have hserves : ServesSectors (fun lba => (0, fun i => (lba * 512 + i).toUInt8)) Nat.toUInt8 :=
    fun _ => ⟨rfl, fun _ _ => rfl⟩
  exact (diskstreamerTransfer_delivers hserves 5 600 (by decide) (by decide)).1 1000 (by decide)

end BasicOS

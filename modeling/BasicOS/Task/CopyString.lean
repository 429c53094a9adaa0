import BasicOS.CString
import BasicOS.Memory.KernelHeap
import BasicOS.Memory.Ladder
import BasicOS.Paging.Lifetime
import BasicOS.Paging.Walk

/-! Copying a string out of a task, `copy_string_from_task`.

The kernel asks for a block, maps the block's page to itself in the task's directory, copies
the string into the block under that directory, and puts the word of the page back before it
copies the block to its destination. So the call leaves no trace but the destination
(`copyStringFromTask_frame`). The string is read while the page of the block is mapped and
the block is being written, and what the task has there is not what is copied: the copy is
the string the task sees just when its bytes are elsewhere or happen to be the same
(`copyStringFromTask_iff`). -/
namespace BasicOS
open Lib Program

variable {H : Type}

abbrev copyFlags : Nat := pagingMasksIsWritable ||| pagingMasksIsPresent ||| pagingMasksAccessAll

/-! ### Under the directory of the task -/

/-- `*a` through the directory. -/
def loadThrough (directory a : Nat) : Program Stop (Ram H) UInt8 := do
  let mem := (← get).mem
  Program.when (¬ Present mem directory a) (stop .fault)
  return mem (physicalAddress mem directory a)

/-- `*a = c` through the directory; the kernel writes to any page that is present. -/
def storeThrough (directory a : Nat) (c : UInt8) : Program Stop (Ram H) Unit := do
  let mem := (← get).mem
  Program.when (¬ Present mem directory a) (stop .fault)
  modify fun s => {s with mem := Function.update s.mem (physicalAddress mem directory a) c}

/-- The loop of `strncpy` with the characters left, and the zero. -/
def strncpyThroughFrom (directory : Nat) : Nat → Nat → Nat → Program Stop (Ram H) Unit
  | 0, dst, _ => storeThrough directory dst 0
  | n + 1, dst, src => do
    let c ← loadThrough directory src
    if c = 0 then storeThrough directory dst 0
    else
      storeThrough directory dst c
      strncpyThroughFrom directory n (u32 (dst + 1)) (u32 (src + 1))

def strncpyThrough (directory dst src size : Nat) : Program Stop (Ram H) Unit :=
  if size = 0 then return () else strncpyThroughFrom directory (size - 1) dst src

/-- `pageDirectory` is the task's memory map. -/
def copyStringFromTask (A : Allocator H) (pageDirectory virtual physical : Nat) (max : Int) :
    Program Stop (Ram H) Int := do
  if max ≥ pagingPageSize then return -einvarg
  let tmp ← kzalloc A (u32OfInt max)
  if tmp = 0 then return -enomem
  let taskDirectory ← load32 pageDirectory
  let oldEntry := pagingGet (← get).mem taskDirectory tmp
  modify fun s => {s with mem := (pagingMap s.mem pageDirectory tmp tmp copyFlags).2}
  -- `paging_switch`
  let directory ← load32 pageDirectory
  strncpyThrough directory tmp virtual (u32OfInt max)
  -- `kernel_page`: addresses are physical again
  let (res, mem) := pagingSet (← get).mem taskDirectory tmp oldEntry
  modify fun s => {s with mem := mem}
  if res < 0 then
    kfree A tmp
    return -eio
  modify fun s => {s with mem := strncpy s.mem physical tmp (u32OfInt max)}
  kfree A tmp
  return res

/-! ### The copy into the block -/

/-- The physical address of `v` where page `k` has the word `entry k`. -/
def placeOf (entry : Nat → Nat) (v : Nat) : Nat := (entry (v / pagingPageSize) &&& 0xFFFFF000) + v % pagingPageSize

/-- The page at `tmp` is mapped to itself by the directory, and no part of it. -/
structure SelfMapped (D : DirectoryBlocks) (entry : Nat → Nat) (tmp : Nat) (m : Memory) : Prop where
  tables : Tables D entry m
  page : IsPage tmp
  entry : entry (tmp / pagingPageSize) = tmp + copyFlags
  outside : ∀ b, tmp ≤ b → b < tmp + pagingPageSize → ¬ Extent.Holds ⟨D.directory, pagingPageSize⟩ b ∧ ¬ D.InTables b

variable {D : DirectoryBlocks} {entry : Nat → Nat} {tmp k n src : Nat} {m : Memory} {r : Ram H}

theorem SelfMapped.write (h : SelfMapped D entry tmp m) (hk : k < pagingPageSize) (c : UInt8) :
    SelfMapped D entry tmp (Function.update m (tmp + k) c) := by
  refine ⟨h.tables.congr (fun b hb => ?_) fun b hb => ?_, h.page, h.entry, h.outside⟩
  · refine Function.update_of_ne (fun heq => ?_) ..
    exact (h.outside b (by omega) (by omega)).1 hb
  · refine Function.update_of_ne (fun heq => ?_) ..
    exact (h.outside b (by omega) (by omega)).2 hb

/-- Addresses of the page stand for themselves. -/
theorem SelfMapped.self (h : SelfMapped D entry tmp m) (hk : k < pagingPageSize) :
    Present m D.directory (tmp + k) ∧ physicalAddress m D.directory (tmp + k) = tmp + k := by
  obtain ⟨halign, hend⟩ := h.page
  have hpage : (tmp + k) / pagingPageSize = tmp / pagingPageSize := by
    simp only [pagingPageSize] at *
    omega
  have hv : tmp + k < 2 ^ 32 := by omega
  have hword := h.entry
  have hflags : copyFlags = 7 := by decide
  rw [hflags] at hword
  obtain ⟨hdirectory, hentry⟩ := h.tables.pageEntry hv
  rw [hpage, hword] at hentry
  refine ⟨⟨hdirectory, ?_⟩, ?_⟩
  · rw [hentry]
    simp only [pagingPageSize] at halign
    omega
  · rw [h.tables.physicalAddress hv, hpage, hword, and_pageMask (by simp only [pagingPageSize] at *; omega)]
    simp only [pagingPageSize] at *
    omega

theorem storeThrough_spec (h : SelfMapped D entry tmp r.mem) (hk : k < pagingPageSize) (c : UInt8) :
    storeThrough D.directory (tmp + k) c r = .ok ((), {r with mem := Function.update r.mem (tmp + k) c}) := by
  obtain ⟨hpresent, hself⟩ := h.self hk
  unfold storeThrough
  rw [bind_apply, get_apply]
  show (Program.when _ _ >>= _) r = _
  rw [when_false (not_not_intro hpresent), hself]
  rfl

theorem wp_loadThrough (htables : Tables D entry r.mem) (hsrc : src < 2 ^ 32) :
    wp (loadThrough D.directory src) (fun c r' => c = r.mem (placeOf entry src) ∧ r' = r)
      (fun _ => entry (src / pagingPageSize) % 2 ≠ 1) r := by
  obtain ⟨hdirectory, hentry⟩ := htables.pageEntry hsrc
  unfold loadThrough
  rw [wp_bind, wp_get, wp_bind, wp_when]
  refine ⟨fun habsent heq => habsent ⟨hdirectory, hentry.symm ▸ heq⟩, fun _ => ⟨?_, rfl⟩⟩
  rw [htables.physicalAddress hsrc]
  rfl

/-- **The loop copies what it reads**, each character where the address leads, in memory with
the characters before it copied. It stops where a character or the end of the string is in no
page. -/
theorem wp_strncpyThroughFrom (h : SelfMapped D entry tmp r.mem) (hroom : k + n < pagingPageSize)
    (hsrc : src < 2 ^ 32) :
    wp (strncpyThroughFrom D.directory n (tmp + k) src) (fun _ r' => r'.heap = r.heap ∧ ∃ text,
      r'.mem = store r.mem (tmp + k) (text ++ [0]) ∧
      ReadBy (fun t => store r.mem (tmp + k) t (placeOf entry (u32 (src + t.length)))) n text)
      (fun _ => ∀ text, ReadBy (fun t => store r.mem (tmp + k) t (placeOf entry (u32 (src + t.length)))) n text →
        ∃ i, i < n ∧ i ≤ text.length ∧ entry (u32 (src + i) / pagingPageSize) % 2 ≠ 1) r := by
  induction n generalizing k src r with
  | zero =>
    unfold strncpyThroughFrom
    rw [wp_ok (storeThrough_spec h (by omega) 0)]
    exact ⟨rfl, [], (store_singleton _ _ _).symm, readBy_nil fun h => absurd h (by decide)⟩
  | succ n ih =>
    have hnil : store r.mem (tmp + k) [] = r.mem := by
      funext b
      exact if_neg (by simp only [List.length_nil]; omega)
    have hfirst : store r.mem (tmp + k) [] (placeOf entry (u32 (src + ([] : List UInt8).length))) =
        r.mem (placeOf entry src) := by
      rw [hnil, List.length_nil, Nat.add_zero, u32_of_lt hsrc]
    unfold strncpyThroughFrom
    refine (wp_bind _ _).mpr ((wp_loadThrough h.tables hsrc).mono (fun c t hload => ?_) fun _ habsent text _ => ?_)
    · obtain ⟨rfl, rfl⟩ := hload
      by_cases hzero : t.mem (placeOf entry src) = 0
      · rw [if_pos hzero, wp_ok (storeThrough_spec h (by omega) 0)]
        exact ⟨rfl, [], (store_singleton _ _ _).symm, readBy_nil fun _ => hfirst.trans hzero⟩
      · rw [if_neg hzero, wp_bind, wp_ok (storeThrough_spec h (by omega) _)]
        have hend := h.page.2
        have hdst : u32 (tmp + k + 1) = tmp + (k + 1) := u32_of_lt (by omega)
        have hnext := h.write (k := k) (by omega) (t.mem (placeOf entry src))
        -- what follows the first character
        have hrest : (fun u : List UInt8 => store t.mem (tmp + k) (t.mem (placeOf entry src) :: u)
            (placeOf entry (u32 (src + (t.mem (placeOf entry src) :: u).length)))) =
            fun u => store (Function.update t.mem (tmp + k) (t.mem (placeOf entry src))) (tmp + (k + 1)) u
              (placeOf entry (u32 (u32 (src + 1) + u.length))) := by
          funext u
          rw [← Nat.add_assoc tmp k 1, store_update]
          congr 2
          unfold u32
          rw [List.length_cons, Nat.mod_add_mod, Nat.add_assoc, Nat.add_comm 1]
        rw [hdst]
        refine (ih (r := {t with mem := Function.update t.mem (tmp + k) (t.mem (placeOf entry src))}) hnext (by omega)
          (u32_lt _)).mono (fun _ r' hcopied => ?_) fun _ hstopped text hread => ?_
        · obtain ⟨hheap, text, hmem, hread⟩ := hcopied
          refine ⟨hheap, t.mem (placeOf entry src) :: text, hmem.trans (store_update _ _ _ _),
            readBy_cons hzero hfirst ?_⟩
          rw [hrest]
          exact hread
        · obtain ⟨rest, rfl, htail⟩ := hread.uncons hfirst hzero
          rw [hrest] at htail
          obtain ⟨i, hi, hlen, habsent⟩ := hstopped rest htail
          refine ⟨i + 1, Nat.succ_lt_succ hi, Nat.succ_le_succ hlen, ?_⟩
          have haddr : u32 (u32 (src + 1) + i) = u32 (src + (i + 1)) := by
            unfold u32
            rw [Nat.mod_add_mod, Nat.add_assoc, Nat.add_comm 1]
          rwa [haddr] at habsent
    · refine ⟨0, Nat.succ_pos n, Nat.zero_le _, ?_⟩
      rwa [Nat.add_zero, u32_of_lt hsrc]

/-! ### The block -/

variable {A : Allocator H} {C : Contract A} {chunk virtual physical max : Nat}

/-- The address the allocator answers the next request of that size with. -/
def nextBlock (A : Allocator H) (size : Nat) (heap : H) : Nat := ((A.kmalloc size heap).map Prod.fst).getD 0

theorem nextBlock_answer {size ptr : Nat} {heap heap' : H} (h : A.kmalloc size heap = some (ptr, heap')) :
    nextBlock A size heap = ptr := by
  unfold nextBlock
  rw [h]
  rfl

theorem IsPage.flags_lt (h : IsPage tmp) : tmp / pagingPageSize < 2 ^ 20 ∧ tmp + copyFlags < 2 ^ 32 ∧
    tmp / pagingPageSize * pagingPageSize = tmp := by
  obtain ⟨halign, hend⟩ := h
  rw [show copyFlags = 7 by decide]
  simp only [pagingPageSize] at *
  omega

/-- Where the word of the page of `v` is. -/
def wordOf (D : DirectoryBlocks) (v : Nat) : Nat := D.tables (v / pagingPageSize / 1024) + 4 * (v / pagingPageSize % 1024)

/-- Memory with the block at `tmp` cleared and its page mapped, and `text` in the block. -/
def scratchMemory (D : DirectoryBlocks) (m : Memory) (tmp size : Nat) (text : List UInt8) : Memory :=
  store (write32 (fill m tmp size 0) (wordOf D tmp) (tmp + copyFlags)) tmp text

/-- The words of the directory meanwhile. -/
def scratchEntry (entry : Nat → Nat) (tmp : Nat) : Nat → Nat :=
  Function.update entry (tmp / pagingPageSize) (tmp + copyFlags)

/-- A page that is absent meanwhile was absent before. -/
theorem scratchEntry_absent (hpage : IsPage tmp) (h : scratchEntry entry tmp k % 2 ≠ 1) : entry k % 2 ≠ 1 := by
  have halign := hpage.1
  unfold scratchEntry at h
  by_cases hk : k = tmp / pagingPageSize
  · rw [hk, Function.update_self, show copyFlags = 7 by decide] at h
    simp only [pagingPageSize] at halign
    omega
  · rwa [Function.update_of_ne hk] at h

/-- The block the kernel asks for, in a directory no request reaches. -/
structure Scratch (C : Contract A) (r : Ram H) (D : DirectoryBlocks) (tmp : Nat) : Prop where
  page : IsPage tmp
  unused : ∀ b, tmp ≤ b → b < tmp + pagingPageSize → ¬ C.InUse r b

theorem Scratch.outside (h : Scratch C r D tmp) (hdir : DirectoryInUse C r D chunk) {b : Nat} (h1 : tmp ≤ b)
    (h2 : b < tmp + pagingPageSize) : ¬ Extent.Holds ⟨D.directory, pagingPageSize⟩ b ∧ ¬ D.InTables b :=
  ⟨fun hb => h.unused b h1 h2 (hdir.directory b hb), fun hb => h.unused b h1 h2 (hdir.tables b hb)⟩

theorem Tables.get_page (h : Tables D entry m) (hpage : IsPage tmp) :
    pagingGet m D.directory tmp = entry (tmp / pagingPageSize) := by
  obtain ⟨hlt, _, hbase⟩ := hpage.flags_lt
  have hget := h.get hlt
  rwa [hbase] at hget

theorem Tables.set_page (h : Tables D entry m) (hpage : IsPage tmp) (val : Nat) :
    pagingSet m D.directory tmp val = (0, write32 m (wordOf D tmp) val) := by
  obtain ⟨hlt, _, hbase⟩ := hpage.flags_lt
  have hset := h.pagingSet_eq hlt val
  rwa [hbase] at hset

theorem wordOf_inTables {v b : Nat} (hv : v < 2 ^ 32) (h1 : wordOf D v ≤ b) (h2 : b < wordOf D v + 4) :
    D.InTables b := by
  unfold wordOf at h1 h2
  refine ⟨v / pagingPageSize / 1024, ?_, ?_⟩
  · simp only [pagingPageSize]
    omega
  · rw [Extent.holds_mk]
    simp only [pagingPageSize] at *
    omega

/-- The word of the block's page is no part of the block. -/
theorem Scratch.word_apart (h : Scratch C r D tmp) (hdir : DirectoryInUse C r D chunk) {size : Nat}
    (hsize : size ≤ pagingPageSize) : tmp + size ≤ wordOf D tmp ∨ wordOf D tmp + 4 ≤ tmp := by
  have hend := h.page.2
  have hpos : 0 < pagingPageSize := by decide
  have hword : ∀ b, wordOf D tmp ≤ b → b < wordOf D tmp + 4 → b < tmp ∨ tmp + pagingPageSize ≤ b := by
    intro b h1 h2
    by_contra hin
    exact (h.outside hdir (b := b) (by omega) (by omega)).2 (wordOf_inTables (by omega) h1 h2)
  have hfirst := hword (wordOf D tmp) (by omega) (by omega)
  have hlast := hword (wordOf D tmp + 3) (by omega) (by omega)
  have hmid := hword (wordOf D tmp + 1) (by omega) (by omega)
  have hmid' := hword (wordOf D tmp + 2) (by omega) (by omega)
  simp only [pagingPageSize] at *
  omega

theorem scratchMemory_nil (D : DirectoryBlocks) (m : Memory) (tmp size : Nat) : scratchMemory D m tmp size [] =
    write32 (fill m tmp size 0) (wordOf D tmp) (tmp + copyFlags) := by
  funext b
  unfold scratchMemory store
  rw [if_neg (by simp only [List.length_nil]; omega)]

theorem scratchMemory_append (D : DirectoryBlocks) (m : Memory) (tmp size : Nat) (text : List UInt8) :
    store (scratchMemory D m tmp size []) tmp text = scratchMemory D m tmp size text := by
  rw [scratchMemory_nil]
  rfl

/-- The directory while the block is filled. -/
theorem Scratch.filled (h : Scratch C r D tmp) (hdir : DirectoryInUse C r D chunk) (htables : Tables D entry r.mem)
    {size : Nat} (hsize : size ≤ pagingPageSize) : Tables D entry (fill r.mem tmp size 0) := by
  refine htables.congr (fun b hb => ?_) fun b hb => ?_
  · refine sameOutside_fill _ _ _ _ b fun hin => ?_
    rw [Extent.holds_mk] at hin
    exact (h.outside hdir hin.1 (by omega)).1 hb
  · refine sameOutside_fill _ _ _ _ b fun hin => ?_
    rw [Extent.holds_mk] at hin
    exact (h.outside hdir hin.1 (by omega)).2 hb

/-- The block's page as the copy finds it. -/
theorem Scratch.mapped (h : Scratch C r D tmp) (hdir : DirectoryInUse C r D chunk) (htables : Tables D entry r.mem)
    {size : Nat} (hsize : size ≤ pagingPageSize) :
    SelfMapped D (scratchEntry entry tmp) tmp (scratchMemory D r.mem tmp size []) := by
  obtain ⟨hpage, hword, _⟩ := h.page.flags_lt
  rw [scratchMemory_nil]
  exact ⟨((h.filled hdir htables hsize).write hpage hword).1, h.page, Function.update_self ..,
    fun b h1 h2 => h.outside hdir h1 h2⟩

/-- Putting the word back leaves the block alone. -/
theorem Scratch.restored (h : Scratch C r D tmp) (hdir : DirectoryInUse C r D chunk) (htables : Tables D entry r.mem)
    {size : Nat} (hsize : size ≤ pagingPageSize) {text : List UInt8} (htext : text.length ≤ size) :
    write32 (scratchMemory D r.mem tmp size text) (wordOf D tmp) (entry (tmp / pagingPageSize)) =
      store (fill r.mem tmp size 0) tmp text := by
  have hapart := h.word_apart hdir (Nat.le_trans htext hsize)
  have hword : entry (tmp / pagingPageSize) = read32 (fill r.mem tmp size 0) (wordOf D tmp) :=
    ((h.filled hdir htables hsize).entries _ h.page.flags_lt.1).symm
  unfold scratchMemory
  rw [← store_write32 _ _ hapart, write32_write32, hword, write32_read32]

/-- The directory after the copy, before the word is put back. -/
theorem Scratch.copied (h : Scratch C r D tmp) (hdir : DirectoryInUse C r D chunk) (htables : Tables D entry r.mem)
    {size : Nat} (hsize : size ≤ pagingPageSize) {text : List UInt8} (htext : text.length ≤ size) :
    Tables D (scratchEntry entry tmp) (scratchMemory D r.mem tmp size text) := by
  rw [← scratchMemory_append]
  refine (h.mapped hdir htables hsize).tables.congr (fun b hb => ?_) fun b hb => ?_
  · refine sameOutside_store _ _ _ b fun hin => ?_
    rw [Extent.holds_mk] at hin
    exact (h.outside hdir hin.1 (by omega)).1 hb
  · refine sameOutside_store _ _ _ b fun hin => ?_
    rw [Extent.holds_mk] at hin
    exact (h.outside hdir hin.1 (by omega)).2 hb

/-- Mapping the cleared block to itself; the memory map leads to the directory before and after. -/
theorem Scratch.map (h : Scratch C r D tmp) (hdir : DirectoryInUse C r D chunk) (htables : Tables D entry r.mem)
    {size : Nat} (hsize : size ≤ pagingPageSize) (hchunk : read32 (fill r.mem tmp size 0) chunk = D.directory) :
    pagingGet (fill r.mem tmp size 0) D.directory tmp = entry (tmp / pagingPageSize) ∧
      (pagingMap (fill r.mem tmp size 0) chunk tmp tmp copyFlags).2 = scratchMemory D r.mem tmp size [] ∧
      read32 (scratchMemory D r.mem tmp size []) chunk = D.directory := by
  obtain ⟨hpage, hflags, hbase⟩ := h.page.flags_lt
  have halign := h.page.1
  have hfilled := h.filled hdir htables hsize
  refine ⟨hfilled.get_page h.page, ?_, ?_⟩
  · unfold pagingMap
    rw [if_neg (by omega), hchunk, hfilled.set_page h.page, u32OfInt_natCast,
      u32_of_lt (show copyFlags < 2 ^ 32 by decide), or_flags halign (show copyFlags < pagingPageSize by decide),
      scratchMemory_nil]
  · rw [← hchunk, scratchMemory_nil]
    refine read32_congr fun b h1 h2 => ?_
    refine write32_apart _ _ ?_
    by_contra hin
    exact hdir.chunkOf.outside b h1 h2 (wordOf_inTables (v := tmp) (by omega) (by omega) (by omega))

/-! ### What the copy finds -/

variable {text : List UInt8} {v o : Nat}

/-- The byte at offset `o` of the block with the characters of `text` in it. -/
def blockByte (m : Memory) (tmp max : Nat) (text : List UInt8) (o : Nat) : UInt8 :=
  if o < text.length then text.getD o 0 else if o < max then 0 else m (tmp + o)

/-- The bytes of the block's page. -/
theorem Scratch.page_byte (h : Scratch C r D tmp) (hdir : DirectoryInUse C r D chunk) (ho : o < pagingPageSize) :
    scratchMemory D r.mem tmp max text (tmp + o) = blockByte r.mem tmp max text o := by
  have hapart := h.word_apart hdir (Nat.le_refl pagingPageSize)
  unfold scratchMemory blockByte store
  by_cases htext : o < text.length
  · rw [if_pos (by omega), if_pos htext, Nat.add_sub_cancel_left]
  · rw [if_neg (by omega), if_neg htext, write32_apart _ _ (by omega)]
    unfold fill
    by_cases hmax : o < max
    · rw [if_pos (by omega), if_pos hmax]
    · rw [if_neg (by omega), if_neg hmax]

/-- Bytes elsewhere than in the block and the word of its page. -/
theorem scratchMemory_other (htext : text.length ≤ max) {b : Nat} (hblock : ¬ Extent.Holds ⟨tmp, max⟩ b)
    (hword : ¬ Extent.Holds ⟨wordOf D tmp, 4⟩ b) : scratchMemory D m tmp max text b = m b := by
  rw [Extent.holds_mk] at hblock hword
  unfold scratchMemory store
  rw [if_neg (by omega), write32_apart _ _ (by omega)]
  exact if_neg hblock

/-- The byte the copy finds at an address of the task: in the page of the block, through
another page in the block or in the word of its page, or elsewhere. -/
def foundByte (D : DirectoryBlocks) (m : Memory) (tmp max : Nat) (text : List UInt8) (v : Nat) : UInt8 :=
  if v / pagingPageSize = tmp / pagingPageSize then blockByte m tmp max text (v % pagingPageSize)
  else
    let b := physicalAddress m D.directory v
    if tmp ≤ b ∧ b < tmp + max then blockByte m tmp max text (b - tmp)
    else if wordOf D tmp ≤ b ∧ b < wordOf D tmp + 4 then UInt8.ofNat ((tmp + copyFlags) / 2 ^ (8 * (b - wordOf D tmp)))
    else m b

/-- The copy reads what it finds. -/
theorem Scratch.found (h : Scratch C r D tmp) (hdir : DirectoryInUse C r D chunk) (htables : Tables D entry r.mem)
    (hmax : max ≤ pagingPageSize) (htext : text.length ≤ max) (hv : v < 2 ^ 32) :
    scratchMemory D r.mem tmp max text (placeOf (scratchEntry entry tmp) v) = foundByte D r.mem tmp max text v := by
  have hpos : 0 < pagingPageSize := by decide
  unfold foundByte
  by_cases hpage : v / pagingPageSize = tmp / pagingPageSize
  · have hplace : placeOf (scratchEntry entry tmp) v = tmp + v % pagingPageSize := by
      obtain ⟨_, hflags, _⟩ := h.page.flags_lt
      unfold placeOf scratchEntry
      rw [hpage, Function.update_self, and_pageMask hflags]
      have halign := h.page.1
      rw [show copyFlags = 7 by decide]
      simp only [pagingPageSize] at *
      omega
    rw [if_pos hpage, hplace, h.page_byte hdir (Nat.mod_lt _ hpos)]
  · have hplace : placeOf (scratchEntry entry tmp) v = physicalAddress r.mem D.directory v := by
      rw [htables.physicalAddress hv]
      unfold placeOf scratchEntry
      rw [Function.update_of_ne hpage]
    rw [if_neg hpage, hplace]
    generalize physicalAddress r.mem D.directory v = b
    have hapart := h.word_apart hdir hmax
    simp only
    by_cases hblock : tmp ≤ b ∧ b < tmp + max
    · obtain ⟨o, rfl⟩ := Nat.exists_eq_add_of_le hblock.1
      rw [if_pos hblock, Nat.add_sub_cancel_left, h.page_byte hdir (by omega)]
    · rw [if_neg hblock]
      by_cases hword : wordOf D tmp ≤ b ∧ b < wordOf D tmp + 4
      · obtain ⟨j, rfl⟩ := Nat.exists_eq_add_of_le hword.1
        rw [if_pos hword, Nat.add_sub_cancel_left]
        unfold scratchMemory store
        rw [if_neg (by omega), write32_byte _ _ _ (by omega)]
      · rw [if_neg hword]
        exact scratchMemory_other htext hblock hword

/-- The string the copy finds at `virtual`. -/
abbrev FoundText (D : DirectoryBlocks) (m : Memory) (tmp max virtual : Nat) (text : List UInt8) : Prop :=
  ReadBy (fun t => foundByte D m tmp max t (u32 (virtual + t.length))) (max - 1) text

theorem Scratch.readBy_iff (h : Scratch C r D tmp) (hdir : DirectoryInUse C r D chunk) (htables : Tables D entry r.mem)
    (hmax : max ≤ pagingPageSize) : ReadBy (fun t => scratchMemory D r.mem tmp max t
      (placeOf (scratchEntry entry tmp) (u32 (virtual + t.length)))) (max - 1) text ↔
        FoundText D r.mem tmp max virtual text :=
  readBy_congr fun t ht => h.found hdir htables hmax (by omega) (u32_lt _)

/-! ### The call -/

/-- A block that is answered may hold the text; the memory map still leads to the directory. -/
theorem Contract.scratch {r₁ : Ram H} (hvalid : C.Valid r₁.heap) (hans : C.Answer r r₁ max tmp) (hne : tmp ≠ 0)
    (hdir : DirectoryInUse C r D chunk) :
    Scratch C r D tmp ∧ C.pages r₁ tmp ≠ 0 ∧ read32 r₁.mem chunk = D.directory := by
  have htaken := hans.taken hvalid
  rw [if_neg hne] at htaken
  have hpages : C.pages r₁ tmp ≠ 0 := (htaken.fresh tmp (List.mem_singleton_self tmp)).2
  refine ⟨⟨C.isPage hvalid hpages, fun b h1 h2 => ?_⟩, hpages, ?_⟩
  · exact htaken.not_inUse (List.mem_singleton_self tmp) (Contract.holds_page hpages h1 h2)
  · exact (read32_congr fun b h1 h2 => htaken.inUse (hdir.chunk b h1 h2)).trans hdir.chunkOf.directory

/-- With the block given back, the blocks are those of before. -/
theorem Contract.Answer.given_back {r₁ : Ram H} (hvalid : C.Valid r₁.heap) (hans : C.Answer r r₁ max tmp)
    (hne : tmp ≠ 0) (hpages : C.pages r₁ tmp ≠ 0) :
    C.Valid (A.kfree tmp r₁.heap) ∧ C.live (A.kfree tmp r₁.heap) = C.live r.heap := by
  obtain ⟨_, hfree, _, n, _, _, hlive⟩ := hans.resolve_left fun h => hne h.1
  obtain ⟨hvalid', hreleased⟩ := C.free hvalid hpages
  refine ⟨hvalid', ?_⟩
  rw [hreleased, hlive, Function.update_idem]
  exact Function.update_eq_self_iff.mpr hfree.symm

/-- The string goes into the block as it is found. -/
theorem Scratch.receives (h : Scratch C r D tmp) (hdir : DirectoryInUse C r D chunk) (htables : Tables D entry r.mem)
    (hvirtual : virtual < 2 ^ 32) (h1 : 1 ≤ max) (hmax : max < pagingPageSize) (heap : H) :
    wp (strncpyThrough D.directory tmp virtual max) (fun _ r' => r'.heap = heap ∧ ∃ text,
      r'.mem = scratchMemory D r.mem tmp max (text ++ [0]) ∧ FoundText D r.mem tmp max virtual text)
      (fun _ => ∀ text, FoundText D r.mem tmp max virtual text →
        ∃ i, i < max - 1 ∧ i ≤ text.length ∧ entry (u32 (virtual + i) / pagingPageSize) % 2 ≠ 1)
      ⟨heap, scratchMemory D r.mem tmp max []⟩ := by
  have hsize : max ≤ pagingPageSize := Nat.le_of_lt hmax
  unfold strncpyThrough
  rw [if_neg (by omega)]
  refine (wp_strncpyThroughFrom (k := 0) (n := max - 1) (r := ⟨heap, scratchMemory D r.mem tmp max []⟩)
    (h.mapped hdir htables hsize) (by omega) hvirtual).mono (fun _ r' hcopied => ?_) fun _ hstopped text hfound => ?_
  · obtain ⟨hheap, text, hmem, hread⟩ := hcopied
    simp only [Nat.add_zero, scratchMemory_append] at hmem hread
    exact ⟨hheap, text, hmem, (h.readBy_iff hdir htables hsize).mp hread⟩
  · simp only [Nat.add_zero, scratchMemory_append] at hstopped
    obtain ⟨i, hi, hlen, habsent⟩ := hstopped text ((h.readBy_iff hdir htables hsize).mpr hfound)
    exact ⟨i, hi, hlen, scratchEntry_absent h.page habsent⟩

/-- **The copy through the block.** The block is cleared, holds the text read and is copied
from there; the directory is as before. The call stops where the allocator does not answer, or
where a character of the text, or its end, is in no page. -/
theorem wp_copyStringFromTask (hvalid : C.Valid r.heap) (hdir : DirectoryInUse C r D chunk)
    (htables : Tables D entry r.mem) (hvirtual : virtual < 2 ^ 32) (h1 : 1 ≤ max) (hmax : max < pagingPageSize) :
    wp (copyStringFromTask A chunk virtual physical max) (fun res r' => C.Valid r'.heap ∧
      C.live r'.heap = C.live r.heap ∧ ((nextBlock A max r.heap = 0 ∧ res = -enomem ∧ r'.mem = r.mem) ∨
        ∃ text, res = 0 ∧
        Scratch C r D (nextBlock A max r.heap) ∧
        r'.mem = strncpy (store (fill r.mem (nextBlock A max r.heap) max 0) (nextBlock A max r.heap) (text ++ [0]))
          physical (nextBlock A max r.heap) max ∧
        FoundText D r.mem (nextBlock A max r.heap) max virtual text))
      (fun _ => A.kmalloc max r.heap = none ∨ (nextBlock A max r.heap ≠ 0 ∧
        ∀ text, FoundText D r.mem (nextBlock A max r.heap) max virtual text →
          ∃ i, i < max - 1 ∧ i ≤ text.length ∧ entry (u32 (virtual + i) / pagingPageSize) % 2 ≠ 1)) r := by
  have hmax32 : u32OfInt (max : Int) = max := by
    rw [u32OfInt_natCast, u32_of_lt (by simp only [pagingPageSize] at hmax; omega)]
  have hsize : max ≤ pagingPageSize := Nat.le_of_lt hmax
  unfold copyStringFromTask
  rw [if_neg (by simp only [pagingPageSize] at *; omega), hmax32]
  refine (wp_bind _ _).mpr ((wp_kzalloc hvalid max).mono (fun tmp r₁ hzalloc => ?_) fun _ hnone => .inl hnone)
  obtain ⟨hvalid₁, hans, hanswer⟩ := hzalloc
  rw [nextBlock_answer hanswer]
  by_cases hnull : tmp = 0
  · rw [if_pos hnull]
    rcases hans with ⟨_, hmem, hlive⟩ | ⟨hne, _⟩
    · exact ⟨hvalid₁, hlive, .inl ⟨hnull, rfl, hmem⟩⟩
    · exact absurd hnull hne
  rw [if_neg hnull]
  have hmem₁ : r₁.mem = fill r.mem tmp max 0 := (hans.resolve_left fun h => hnull h.1).2.2.1
  obtain ⟨hscratch, hpages, hchunk⟩ := Contract.scratch hvalid₁ hans hnull hdir
  -- the page of the block is mapped to itself
  obtain ⟨hold, hmap, hswitch⟩ := hscratch.map hdir htables hsize (hmem₁ ▸ hchunk)
  have hload : load32 chunk r₁ = .ok (D.directory, r₁) := by
    rw [← hchunk]
    rfl
  have hload' : load32 chunk {r₁ with mem := scratchMemory D r.mem tmp max []} =
      .ok (D.directory, {r₁ with mem := scratchMemory D r.mem tmp max []}) := by
    rw [← hswitch]
    rfl
  simp only [wp_bind, wp_get, wp_modify]
  rw [wp_ok hload, hmem₁, hold, hmap, wp_ok hload']
  -- the string
  refine (hscratch.receives hdir htables hvirtual h1 hmax r₁.heap).mono (fun _ r₂ hcopied => ?_) fun _ hstopped =>
    .inr ⟨hnull, hstopped⟩
  obtain ⟨hheap, text, hmem₂, hfound⟩ := hcopied
  have hlen : (text ++ [0]).length ≤ max := by
    have := hfound.length
    simp only [List.length_append, List.length_singleton]
    omega
  -- the entry comes back
  rw [hmem₂, (hscratch.copied hdir htables hsize hlen).set_page hscratch.page,
    hscratch.restored hdir htables hsize hlen]
  simp only [Int.lt_irrefl, if_false, wp_bind, wp_modify, wp_pure]
  rw [hheap]
  obtain ⟨hvalid₃, hlive⟩ := hans.given_back hvalid₁ hnull hpages
  exact ⟨hvalid₃, hlive, .inr ⟨text, trivial, hscratch, rfl, hfound⟩⟩

theorem copyStringFromTask_spec (hvalid : C.Valid r.heap) (hdir : DirectoryInUse C r D chunk)
    (htables : Tables D entry r.mem) (hvirtual : virtual < 2 ^ 32) (h1 : 1 ≤ max) (hmax : max < pagingPageSize) :
    Ensures (copyStringFromTask A chunk virtual physical max) (fun res r' => C.Valid r'.heap ∧
      C.live r'.heap = C.live r.heap ∧ ((nextBlock A max r.heap = 0 ∧ res = -enomem ∧ r'.mem = r.mem) ∨
        ∃ text, res = 0 ∧
        Scratch C r D (nextBlock A max r.heap) ∧
        r'.mem = strncpy (store (fill r.mem (nextBlock A max r.heap) max 0) (nextBlock A max r.heap) (text ++ [0]))
          physical (nextBlock A max r.heap) max ∧
        FoundText D r.mem (nextBlock A max r.heap) max virtual text)) r :=
  (wp_copyStringFromTask hvalid hdir htables hvirtual h1 hmax).mono (fun _ _ hcopy => hcopy) fun _ _ => trivial

/-- The text reaches a destination in use. -/
theorem Scratch.stored (h : Scratch C r D tmp) (h1 : 1 ≤ max) (hmax : max < pagingPageSize)
    (hdst : ∀ b, physical ≤ b → b < physical + max → C.InUse r b) (hread : FoundText D r.mem tmp max virtual text)
    (m : Memory) :
    Stored (strncpy (store m tmp (text ++ [0])) physical tmp max) physical (text ++ [0]) := by
  have hne : ∀ i j, i < max → j < max → physical + i ≠ tmp + j := fun i j hi hj heq =>
    h.unused (tmp + j) (by omega) (by omega) (heq ▸ hdst (physical + i) (by omega) (by omega))
  -- the destination is not the block
  have hapart : physical + max ≤ tmp ∨ tmp + max ≤ physical := by
    by_contra hover
    rcases Nat.le_total physical tmp with hle | hle
    · exact hne (tmp - physical) 0 (by omega) (by omega) (by omega)
    · exact hne 0 (physical - tmp) (by omega) (by omega) (by omega)
  rw [strncpy_eq (by omega) hapart, stringAt_store _ _ hread.nonzero hread.length]
  exact stored_store _ _ _

theorem Scratch.not_null (h : Scratch C r D tmp) : tmp ≠ 0 := by
  intro hnull
  refine h.unused tmp (Nat.le_refl tmp) (Nat.lt_add_of_pos_right (by decide)) (.inl ?_)
  rw [hnull]
  decide

/-- Outside the block, what the call leaves as it was. -/
theorem Scratch.elsewhere (h : Scratch C r D tmp) (hmax : max < pagingPageSize) (htext : text.length ≤ max - 1)
    (h1 : 1 ≤ max) {b : Nat}
    (hb : C.InUse r b) (hphysical : ¬ Extent.Holds ⟨physical, max⟩ b) :
    strncpy (store (fill r.mem tmp max 0) tmp (text ++ [0])) physical tmp max b = r.mem b := by
  have hout : ¬ (tmp ≤ b ∧ b < tmp + max) := fun hin => h.unused b hin.1 (by omega) hb
  rw [sameOutside_strncpy _ _ _ _ b hphysical]
  refine (sameOutside_store _ _ _ b fun hin => hout ?_).trans (sameOutside_fill _ _ _ _ b hout)
  rw [Extent.holds_mk, List.length_append, List.length_singleton] at hin
  omega

/-- The call with a destination in use: there the text it found, and no other byte in use changed. -/
theorem wp_copyStringFromTask_inUse (hvalid : C.Valid r.heap) (hdir : DirectoryInUse C r D chunk)
    (htables : Tables D entry r.mem) (hvirtual : virtual < 2 ^ 32) (h1 : 1 ≤ max) (hmax : max < pagingPageSize)
    (hdst : ∀ b, physical ≤ b → b < physical + max → C.InUse r b) :
    wp (copyStringFromTask A chunk virtual physical max) (fun _ r' => C.Valid r'.heap ∧
      C.live r'.heap = C.live r.heap ∧ (∀ b, C.InUse r b → ¬ Extent.Holds ⟨physical, max⟩ b → r'.mem b = r.mem b) ∧
      if nextBlock A max r.heap = 0 then r'.mem = r.mem else ∃ text,
        FoundText D r.mem (nextBlock A max r.heap) max virtual text ∧ Stored r'.mem physical (text ++ [0]))
      (fun _ => A.kmalloc max r.heap = none ∨ (nextBlock A max r.heap ≠ 0 ∧
        ∀ text, FoundText D r.mem (nextBlock A max r.heap) max virtual text →
          ∃ i, i < max - 1 ∧ i ≤ text.length ∧ entry (u32 (virtual + i) / pagingPageSize) % 2 ≠ 1)) r := by
  refine (wp_copyStringFromTask hvalid hdir htables hvirtual h1 hmax).mono (fun res r' hcopy => ?_) fun _ hstopped =>
    hstopped
  obtain ⟨hvalid', hlive, ⟨hnull, _, hmem⟩ | ⟨text, _, hscratch, hmem, hread⟩⟩ := hcopy
  · rw [if_pos hnull]
    exact ⟨hvalid', hlive, fun b _ _ => by rw [hmem], hmem⟩
  · rw [if_neg hscratch.not_null, hmem]
    exact ⟨hvalid', hlive, fun b hb hphysical => hscratch.elsewhere hmax hread.length h1 hb hphysical,
      text, hread, hscratch.stored h1 hmax hdst hread _⟩

/-- The bytes the copy goes through: those of the block, if the allocator gives one. -/
def copyBlock (A : Allocator H) (max : Nat) (heap : H) : Extent :=
  ⟨nextBlock A max heap, if nextBlock A max heap = 0 then 0 else max⟩

/-- **The call leaves no trace**: the live blocks and every word of the directory are as before,
and outside the block it goes through, which was not in use, only the destination changes. -/
theorem copyStringFromTask_frame (hvalid : C.Valid r.heap) (hdir : DirectoryInUse C r D chunk)
    (htables : Tables D entry r.mem) (hvirtual : virtual < 2 ^ 32) (h1 : 1 ≤ max) (hmax : max < pagingPageSize)
    (hdst : ∀ b, physical ≤ b → b < physical + max → ¬ Extent.Holds ⟨D.directory, pagingPageSize⟩ b ∧ ¬ D.InTables b) :
    Ensures (copyStringFromTask A chunk virtual physical max) (fun _ r' => C.live r'.heap = C.live r.heap ∧
      Tables D entry r'.mem ∧ (∀ b, (copyBlock A max r.heap).Holds b → ¬ C.InUse r b) ∧
        ∀ b, ¬ (copyBlock A max r.heap).Holds b → ¬ Extent.Holds ⟨physical, max⟩ b → r'.mem b = r.mem b) r := by
  refine (copyStringFromTask_spec hvalid hdir htables hvirtual h1 hmax).mono fun res r' hcopy => ?_
  unfold copyBlock
  obtain ⟨_, hlive, ⟨hnull, _, hmem⟩ | ⟨text, _, hscratch, hmem, hread⟩⟩ := hcopy
  · rw [hmem, if_pos hnull]
    refine ⟨hlive, htables, fun b hb => ?_, fun b _ _ => rfl⟩
    rw [Extent.holds_mk] at hb
    omega
  · rw [if_neg hscratch.not_null]
    have hlen : (text ++ [0]).length ≤ max := by
      have := hread.length
      simp only [List.length_append, List.length_singleton]
      omega
    generalize nextBlock A max r.heap = tmp at *
    have hsame : ∀ b, ¬ Extent.Holds ⟨tmp, max⟩ b → ¬ Extent.Holds ⟨physical, max⟩ b → r'.mem b = r.mem b := by
      intro b htmp hphysical
      rw [hmem, sameOutside_strncpy _ _ _ _ b hphysical]
      refine (sameOutside_store _ _ _ b fun hin => htmp ?_).trans (sameOutside_fill _ _ _ _ b htmp)
      rw [Extent.holds_mk] at hin ⊢
      omega
    have hunused : ∀ b, Extent.Holds ⟨tmp, max⟩ b → ¬ C.InUse r b := by
      intro b hb
      rw [Extent.holds_mk] at hb
      exact hscratch.unused b hb.1 (by omega)
    refine ⟨hlive, htables.congr (fun b hb => ?_) fun b hb => ?_, hunused, hsame⟩
    · exact hsame b (fun hin => hunused b hin (hdir.directory b hb)) fun hin => (hdst b hin.1 hin.2).1 hb
    · exact hsame b (fun hin => hunused b hin (hdir.tables b hb)) fun hin => (hdst b hin.1 hin.2).2 hb

/-- Over the kernel heap: every entry of its table is as before. -/
theorem copyStringFromTask_entries {r : Ram HeapState} (hvalid : kheapContract.Valid r.heap)
    (hdir : DirectoryInUse kheapContract r D chunk) (htables : Tables D entry r.mem) (hvirtual : virtual < 2 ^ 32)
    (h1 : 1 ≤ max) (hmax : max < pagingPageSize) :
    Ensures (copyStringFromTask (kheap.restrict HeapState.Grants) chunk virtual physical max)
      (fun _ r' => ∀ i, i < heapMaxHeapBlocksEntries → r'.heap.heap.table.entries i = r.heap.heap.table.entries i) r := by
  refine (copyStringFromTask_spec hvalid hdir htables hvirtual h1 hmax).mono fun res r' hcopy i hi => ?_
  obtain ⟨hvalid', hlive, _⟩ := hcopy
  exact HeapState.Sound.entries_eq hvalid hvalid' hlive hi

/-! ### What is copied -/

/-- Where an address of the task leads to the page of the block, to the block itself, or to
the word of its page, the byte put there is the one the task sees. -/
structure ByteUndisturbed (D : DirectoryBlocks) (m : Memory) (tmp max : Nat) (text : List UInt8) (v : Nat) : Prop where
  page : v / pagingPageSize = tmp / pagingPageSize →
    blockByte m tmp max text (v % pagingPageSize) = userView m D.directory v
  block : v / pagingPageSize ≠ tmp / pagingPageSize → ∀ o, o < max → physicalAddress m D.directory v = tmp + o →
    blockByte m tmp max text o = userView m D.directory v
  word : v / pagingPageSize ≠ tmp / pagingPageSize → ∀ j, j < 4 → physicalAddress m D.directory v = wordOf D tmp + j →
    UInt8.ofNat ((tmp + copyFlags) / 2 ^ (8 * j)) = userView m D.directory v

/-- So it is for every character of the string up to the last one copied, and for its end. -/
def Undisturbed (D : DirectoryBlocks) (m : Memory) (tmp virtual max : Nat) : Prop :=
  ∀ k, k < max - 1 → k ≤ (stringAt (userView m D.directory) virtual (max - 1)).length →
    ByteUndisturbed D m tmp max ((stringAt (userView m D.directory) virtual (max - 1)).take k) (u32 (virtual + k))

/-- A byte is undisturbed just when the copy finds there what the task sees. -/
theorem byteUndisturbed_iff (hmax : tmp + max ≤ wordOf D tmp ∨ wordOf D tmp + 4 ≤ tmp) (hv : v < 2 ^ 32) :
    foundByte D m tmp max text v = userView m D.directory v ↔ ByteUndisturbed D m tmp max text v := by
  have hview : userView m D.directory v = m (physicalAddress m D.directory v) := by
    unfold userView
    rw [Nat.mod_eq_of_lt hv]
  unfold foundByte
  by_cases hpage : v / pagingPageSize = tmp / pagingPageSize
  · rw [if_pos hpage]
    exact ⟨fun hb => ⟨fun _ => hb, fun hne => absurd hpage hne, fun hne => absurd hpage hne⟩, fun hb => hb.page hpage⟩
  rw [if_neg hpage]
  simp only
  by_cases hblock : tmp ≤ physicalAddress m D.directory v ∧ physicalAddress m D.directory v < tmp + max
  · rw [if_pos hblock]
    refine ⟨fun hb => ⟨fun heq => absurd heq hpage, fun _ o _ heq => ?_, fun _ j _ heq => by omega⟩, fun hb => ?_⟩
    · rwa [heq, Nat.add_sub_cancel_left] at hb
    · exact hb.block hpage _ (by omega) (by omega)
  rw [if_neg hblock]
  by_cases hword : wordOf D tmp ≤ physicalAddress m D.directory v ∧ physicalAddress m D.directory v < wordOf D tmp + 4
  · rw [if_pos hword]
    refine ⟨fun hb => ⟨fun heq => absurd heq hpage, fun _ o _ heq => by omega, fun _ j _ heq => ?_⟩, fun hb => ?_⟩
    · rwa [heq, Nat.add_sub_cancel_left] at hb
    · exact hb.word hpage _ (by omega) (by omega)
  · rw [if_neg hword, hview]
    exact ⟨fun _ => ⟨fun heq => absurd heq hpage, fun _ o _ heq => by omega, fun _ j _ heq => by omega⟩, fun _ => rfl⟩

/-- The copy finds the string the task sees just when it is undisturbed. -/
theorem foundText_iff (hmax : tmp + max ≤ wordOf D tmp ∨ wordOf D tmp + 4 ≤ tmp) :
    FoundText D m tmp max virtual (stringAt (userView m D.directory) virtual (max - 1)) ↔
      Undisturbed D m tmp virtual max := by
  refine readBy_stringAt_iff.trans (forall_congr' fun k => forall_congr' fun hk => forall_congr' fun hlen => ?_)
  have hmod : userView m D.directory (virtual + k) = userView m D.directory (u32 (virtual + k)) := by
    unfold userView u32
    rw [Nat.mod_mod]
  rw [List.length_take, Nat.min_eq_left hlen, hmod]
  exact byteUndisturbed_iff hmax (u32_lt _)

/-- A string away from the block's page, the block and the word is undisturbed. -/
theorem undisturbed_of_apart (h : ∀ k, k < max - 1 →
    let v := u32 (virtual + k)
    v / pagingPageSize ≠ tmp / pagingPageSize ∧ ¬ Extent.Holds ⟨tmp, max⟩ (physicalAddress m D.directory v) ∧
      ¬ Extent.Holds ⟨wordOf D tmp, 4⟩ (physicalAddress m D.directory v)) : Undisturbed D m tmp virtual max := by
  intro k hk _
  obtain ⟨hpage, hblock, hword⟩ := h k hk
  refine ⟨fun heq => absurd heq hpage, fun _ o ho heq => absurd ?_ hblock, fun _ j hj heq => absurd ?_ hword⟩
  · rw [heq, Extent.holds_mk]
    omega
  · rw [heq, Extent.holds_mk]
    omega

/-- **What is copied is the string the task sees just when it is undisturbed.** -/
theorem copyStringFromTask_iff (hvalid : C.Valid r.heap) (hdir : DirectoryInUse C r D chunk)
    (htables : Tables D entry r.mem) (hvirtual : virtual < 2 ^ 32) (h1 : 1 ≤ max) (hmax : max < pagingPageSize)
    (hdst : ∀ b, physical ≤ b → b < physical + max → C.InUse r b) {r' : Ram H}
    (hrun : copyStringFromTask A chunk virtual physical max r = .ok (0, r')) :
    Stored r'.mem physical (stringAt (userView r.mem D.directory) virtual (max - 1) ++ [0]) ↔
      Undisturbed D r.mem (nextBlock A max r.heap) virtual max := by
  obtain ⟨_, _, ⟨_, hres, _⟩ | ⟨text, _, hscratch, hmem, hread⟩⟩ :=
    (copyStringFromTask_spec hvalid hdir htables hvirtual h1 hmax).returned hrun
  · exact absurd hres (by decide)
  generalize nextBlock A max r.heap = tmp at *
  have hcopied : Stored r'.mem physical (text ++ [0]) := by
    rw [hmem]
    exact hscratch.stored h1 hmax hdst hread _
  have hstring : Stored r'.mem physical (stringAt (userView r.mem D.directory) virtual (max - 1) ++ [0]) ↔
      text = stringAt (userView r.mem D.directory) virtual (max - 1) :=
    ⟨fun h => stored_unique hcopied h hread.nonzero fun c hc => stringAt_ne_zero hc, fun h => h ▸ hcopied⟩
  rw [hstring, ← foundText_iff (hscratch.word_apart hdir (Nat.le_of_lt hmax))]
  exact ⟨fun htext => htext ▸ hread, hread.unique⟩

/-! ### A task with one string -/

/-- Memory with the words `entry` and an `A` at 0x900000, and nothing given out. -/
def letterRam (entry : Nat → Nat) : Ram Ladder :=
  ⟨⟨0, []⟩, flatMemory entry fun b => if b = 0x900000 then 65 else 0⟩

/-- Every page open to the task. -/
def openEntry (k : Nat) : Nat := k * pagingPageSize + copyFlags

/-- A program page at 0x1000000, in the frame at 0x900000. -/
def segmentEntry : Nat → Nat := Function.update openEntry 0x1000 0x900007

theorem openEntry_lt {k : Nat} (hk : k < 2 ^ 20) : openEntry k < 2 ^ 32 := by
  unfold openEntry
  rw [show copyFlags = 7 by decide]
  simp only [pagingPageSize]
  omega

theorem segmentEntry_lt {k : Nat} (hk : k < 2 ^ 20) : segmentEntry k < 2 ^ 32 := by
  unfold segmentEntry
  by_cases h : k = 0x1000
  · rw [h, Function.update_self]
    decide
  · rw [Function.update_of_ne h]
    exact openEntry_lt hk

/-- A directory below the heap is in use. -/
theorem flatMemory_inUse (C : Contract A) (heap : H) (entry : Nat → Nat) (above : Memory) :
    DirectoryInUse C ⟨heap, flatMemory entry above⟩ lowDirectory 0x1FF000 := by
  refine ⟨flatMemory_chunk _ _, fun b h1 h2 => .inl ?_, fun b hb => .inl ?_, fun b hb => .inl ?_⟩
  · simp only [heapBaseAddress]
    omega
  · rw [Extent.holds_mk] at hb
    simp only [lowDirectory, pagingPageSize, heapBaseAddress] at *
    omega
  · have := lowDirectory_inTables hb
    simp only [heapBaseAddress]
    omega

theorem letterRam_inUse (entry : Nat → Nat) : DirectoryInUse ladderContract (letterRam entry) lowDirectory 0x1FF000 :=
  flatMemory_inUse _ _ _ _

theorem letterRam_valid (entry : Nat → Nat) : ladderContract.Valid (letterRam entry).heap := ladder_sound

theorem letterRam_tables {entry : Nat → Nat} (h : ∀ k, k < 2 ^ 20 → entry k < 2 ^ 32) :
    Tables lowDirectory entry (letterRam entry).mem := flatMemory_tables h _

/-- What the copy of three characters at most to 0x180000 returns, and the first byte there. -/
def copyLetter (entry : Nat → Nat) (virtual : Nat) : Option (Int × UInt8) :=
  ((copyStringFromTask ladder 0x1FF000 virtual 0x180000 4 (letterRam entry)).toOption).map
    fun a => (a.1, a.2.mem 0x180000)

theorem copyLetter_run {entry : Nat → Nat} {virtual : Nat} {c : UInt8} (h : copyLetter entry virtual = some (0, c)) :
    ∃ r', copyStringFromTask ladder 0x1FF000 virtual 0x180000 4 (letterRam entry) = .ok (0, r') ∧
      r'.mem 0x180000 = c := by
  unfold copyLetter at h
  cases hrun : copyStringFromTask ladder 0x1FF000 virtual 0x180000 4 (letterRam entry) with
  | error e =>
    rw [hrun] at h
    cases h
  | ok a =>
    obtain ⟨res, r'⟩ := a
    rw [hrun] at h
    obtain ⟨rfl, rfl⟩ := Prod.mk.inj (Option.some.inj h)
    exact ⟨r', rfl, rfl⟩

/-- Under those words an address stands for itself. -/
theorem openEntry_view {m : Memory} (h : Tables lowDirectory openEntry m) {v : Nat} (hv : v < 2 ^ 32) :
    Present m lowDirectory.directory v ∧ physicalAddress m lowDirectory.directory v = v := by
  have hk : v / pagingPageSize < 2 ^ 20 := by
    simp only [pagingPageSize]
    omega
  have hflags : copyFlags = 7 := by decide
  have hword : openEntry (v / pagingPageSize) = v / pagingPageSize * pagingPageSize + 7 := by
    unfold openEntry
    rw [hflags]
  obtain ⟨hdirectory, hentry⟩ := h.pageEntry hv
  refine ⟨⟨hdirectory, ?_⟩, ?_⟩
  · rw [hentry, hword]
    simp only [pagingPageSize]
    omega
  · rw [h.physicalAddress hv, and_pageMask (openEntry_lt hk), hword]
    simp only [pagingPageSize]
    omega

/-- Low memory stays as it is while the first block is written. -/
theorem openEntry_undisturbed {r : Ram Ladder} {max virtual : Nat} (htables : Tables lowDirectory openEntry r.mem)
    (hblock : nextBlock ladder max r.heap = 0x1000000) (hvirtual : 0x800000 ≤ virtual)
    (hmax : virtual + max ≤ 0x1000000) :
    Undisturbed lowDirectory r.mem (nextBlock ladder max r.heap) virtual max := by
  have hword : wordOf lowDirectory 0x1000000 = 0x404000 := by decide
  rw [hblock]
  refine undisturbed_of_apart fun k hk => ?_
  have hv : u32 (virtual + k) = virtual + k := u32_of_lt (by omega)
  have hplace := (openEntry_view htables (v := virtual + k) (by omega)).2
  simp only [hv, hplace, hword, Extent.holds_mk, pagingPageSize]
  omega

set_option maxRecDepth 100000 in
/-- A letter copied, and what is left of the call. -/
theorem copyStringFromTask_frame_letter : ∃ r',
    copyStringFromTask ladder 0x1FF000 0x900000 0x180000 (4 : Nat) (letterRam openEntry) = .ok (0, r') ∧
    ladderContract.live r'.heap = ladderContract.live (letterRam openEntry).heap ∧
      Tables lowDirectory openEntry r'.mem ∧
    (∀ b, (copyBlock ladder 4 (letterRam openEntry).heap).Holds b → ¬ ladderContract.InUse (letterRam openEntry) b) ∧
      ∀ b, ¬ (copyBlock ladder 4 (letterRam openEntry).heap).Holds b → ¬ Extent.Holds ⟨0x180000, 4⟩ b →
        r'.mem b = (letterRam openEntry).mem b := by
  obtain ⟨r', hrun, _⟩ := copyLetter_run (show copyLetter openEntry 0x900000 = some (0, 65) by decide +kernel)
  refine ⟨r', hrun, ?_⟩
  refine (copyStringFromTask_frame (C := ladderContract) (letterRam_valid _) (letterRam_inUse _)
    (letterRam_tables fun _ => openEntry_lt) (by decide) (by decide) (by decide) fun b h1 h2 =>
    ⟨fun hb => ?_, fun hb => ?_⟩).returned hrun
  · rw [Extent.holds_mk] at hb
    simp only [lowDirectory, pagingPageSize] at hb
    omega
  · have := lowDirectory_inTables hb
    omega

set_option maxRecDepth 100000 in
theorem copyStringFromTask_letter : ∃ r',
    copyStringFromTask ladder 0x1FF000 0x900000 0x180000 (4 : Nat) (letterRam openEntry) = .ok (0, r') ∧
    Stored r'.mem 0x180000 (stringAt (userView (letterRam openEntry).mem lowDirectory.directory) 0x900000 3 ++
      [0]) := by
  obtain ⟨r', hrun, _⟩ := copyLetter_run (show copyLetter openEntry 0x900000 = some (0, 65) by decide +kernel)
  refine ⟨r', hrun, ?_⟩
  refine (copyStringFromTask_iff (C := ladderContract) (letterRam_valid _) (letterRam_inUse _)
    (letterRam_tables fun _ => openEntry_lt) (by decide) (by decide) (by decide) (fun b h1 h2 => .inl ?_) hrun).mpr
    (openEntry_undisturbed (letterRam_tables fun _ => openEntry_lt) (by decide) (by decide) (by decide))
  have hend : b < 0x180000 + 4 := h2
  simp only [heapBaseAddress]
  omega

set_option maxRecDepth 100000 in
/-- The program's page is where the block's page is mapped: the letter is not copied. -/
theorem copyStringFromTask_shadowed : ∃ r', DirectoryInUse ladderContract (letterRam segmentEntry) lowDirectory 0x1FF000 ∧
    Tables lowDirectory segmentEntry (letterRam segmentEntry).mem ∧
    (∀ k, k < 4 → Present (letterRam segmentEntry).mem lowDirectory.directory (0x1000000 + k)) ∧
    copyStringFromTask ladder 0x1FF000 0x1000000 0x180000 (4 : Nat) (letterRam segmentEntry) = .ok (0, r') ∧
    ¬ Stored r'.mem 0x180000
      (stringAt (userView (letterRam segmentEntry).mem lowDirectory.directory) 0x1000000 3 ++ [0]) := by
  obtain ⟨r', hrun, hbyte⟩ := copyLetter_run (show copyLetter segmentEntry 0x1000000 = some (0, 0) by decide +kernel)
  refine ⟨r', letterRam_inUse _, letterRam_tables fun _ => segmentEntry_lt, by decide +kernel, hrun, fun hstored => ?_⟩
  have hstring : stringAt (userView (letterRam segmentEntry).mem lowDirectory.directory) 0x1000000 3 = [65] := by
    decide +kernel
  have hfirst := hstored 0 (by rw [hstring]; decide)
  rw [hstring, Nat.add_zero, hbyte] at hfirst
  exact absurd hfirst (by decide)

end BasicOS

import BasicOS.Paging.Mapping

/-! The directory `_gen_paging_4gb` makes.

Whatever pages the allocator hands out, as long as they are different ones, the loops
leave the identity: the word of page `k` is `k * 4096` with the flags
(`tables_generated`). The running `offset` is an `int` and overflows half way; the
words are unsigned, and the wrapped value is the right one. -/
namespace BasicOS
open Lib

/-- Every page mapped to itself. -/
def identityEntry (flags k : Nat) : Nat := k * pagingPageSize + flags

/-- Memory after the first `n` turns of the directory loop, with the tables given. -/
def generated (directory flags : Nat) (tables : Nat → Nat) (mem : Memory) : Nat → Memory
  | 0 => mem
  | i + 1 =>
    let zeroed := fill (generated directory flags tables mem i) (tables i) pagingPageSize 0
    let filled := fillTable (tables i) (s32 (i * (pagingTotalEntriesPerTable * pagingPageSize))) flags zeroed
      pagingTotalEntriesPerTable
    write32 filled (directory + 4 * i) (tables i ||| flags ||| pagingMasksIsWritable)

/-! ### One table -/

theorem sameOutside_fillTable (entry : Nat) (offset : Int) (flags : Nat) (mem : Memory) (n : Nat) :
    SameOutside ⟨entry, 4 * n⟩ mem (fillTable entry offset flags mem n) := by
  induction n with
  | zero => exact SameOutside.refl _ _
  | succ n ih =>
    unfold fillTable
    refine (ih.mono fun b hb => ?_).trans ((sameOutside_write32 _ _ _).mono fun b hb => ?_)
    · rw [Extent.holds_mk] at hb ⊢
      omega
    · rw [Extent.holds_mk] at hb ⊢
      omega

theorem read32_fillTable {entry : Nat} {offset : Int} {flags : Nat} (mem : Memory) {n j : Nat} (hj : j < n)
    (hword : u32 (u32OfInt offset + j * pagingPageSize) ||| flags < 2 ^ 32) :
    read32 (fillTable entry offset flags mem n) (entry + 4 * j) =
      u32 (u32OfInt offset + j * pagingPageSize) ||| flags := by
  induction n with
  | zero => omega
  | succ n ih =>
    unfold fillTable
    by_cases hjn : j = n
    · subst hjn
      exact read32_write32 _ _ hword
    · rw [read32_write32_apart _ _ (by omega)]
      exact ih (by omega)

/-- Word `j` of table `i` is the identity word of page `1024 * i + j`. -/
theorem fillTable_word {i j flags : Nat} (hi : i < 1024) (hj : j < 1024) (hflags : flags < pagingPageSize) :
    u32 (u32OfInt (s32 (i * (pagingTotalEntriesPerTable * pagingPageSize))) + j * pagingPageSize) ||| flags =
      identityEntry flags (1024 * i + j) := by
  have haddr : u32 (u32OfInt (s32 (i * (pagingTotalEntriesPerTable * pagingPageSize))) + j * pagingPageSize) =
      (1024 * i + j) * pagingPageSize := by
    rw [u32OfInt_s32]
    simp only [u32, pagingTotalEntriesPerTable, pagingPageSize]
    omega
  rw [haddr, or_flags (Nat.mul_mod_left _ _) hflags]
  rfl

theorem identityEntry_lt {flags k : Nat} (hk : k < 2 ^ 20) (hflags : flags < pagingPageSize) :
    identityEntry flags k < 2 ^ 32 := by
  simp only [identityEntry, pagingPageSize] at *
  omega

/-! ### All of them -/

variable {D : DirectoryBlocks}

/-- The loop writes the directory and its tables only. -/
theorem generated_same (flags : Nat) (mem : Memory) {n : Nat} (hn : n ≤ 1024) {b : Nat}
    (hd : ¬ Extent.Holds ⟨D.directory, pagingPageSize⟩ b)
    (ht : ∀ i, i < n → ¬ Extent.Holds ⟨D.tables i, pagingPageSize⟩ b) :
    generated D.directory flags D.tables mem n b = mem b := by
  induction n with
  | zero => rfl
  | succ n ih =>
    have htn := ht n (by omega)
    simp only [generated]
    rw [sameOutside_write32 _ _ _ b (by rw [Extent.holds_mk] at *; simp only [pagingPageSize] at hd; omega),
      sameOutside_fillTable _ _ _ _ _ b htn, sameOutside_fill _ _ _ _ b htn]
    exact ih (by omega) fun i hi => ht i (by omega)

/-- What the first `n` turns have written is still there. -/
theorem generated_spec {flags : Nat} (mem : Memory) (hflags : flags < 2 ^ 8) {n : Nat} (hn : n ≤ 1024) :
    (∀ i, i < n → read32 (generated D.directory flags D.tables mem n) (D.directory + 4 * i) =
      (D.tables i ||| flags ||| pagingMasksIsWritable)) ∧
    ∀ i j, i < n → j < 1024 → read32 (generated D.directory flags D.tables mem n) (D.tables i + 4 * j) =
      identityEntry flags (1024 * i + j) := by
  have hflags' : flags < pagingPageSize := by simp only [pagingPageSize]; omega
  induction n with
  | zero => exact ⟨fun i hi => by omega, fun i j hi => by omega⟩
  | succ n ih =>
    obtain ⟨ihd, iht⟩ := ih (by omega)
    have hapart := (D.tables_page n (by omega)).apart D.directory_page (D.tables_ne n (by omega))
    simp only [pagingPageSize] at hapart
    simp only [generated]
    constructor
    · intro i hi
      by_cases hin : i = n
      · subst hin
        refine read32_write32 _ _ ?_
        have hpage := (D.tables_page i (by omega)).2
        have hlow : flags ||| pagingMasksIsWritable < 2 ^ 8 := Nat.or_lt_two_pow hflags (by decide)
        rw [Nat.or_assoc, or_flags (D.tables_page i (by omega)).1 (by simp only [pagingPageSize]; omega)]
        simp only [pagingPageSize] at hpage
        omega
      · rw [read32_write32_apart _ _ (by omega),
          (sameOutside_fillTable _ _ _ _ _).read32 (by simp only [pagingTotalEntriesPerTable]; omega),
          (sameOutside_fill _ _ _ _).read32 (by simp only [pagingPageSize]; omega)]
        exact ihd i (by omega)
    · intro i j hi hj
      have hapart' := (D.tables_page i (by omega)).apart D.directory_page (D.tables_ne i (by omega))
      simp only [pagingPageSize] at hapart'
      rw [read32_write32_apart _ _ (by omega)]
      by_cases hin : i = n
      · subst hin
        have hword := fillTable_word (show i < 1024 by omega) hj hflags'
        rw [read32_fillTable _ hj (by rw [hword]; exact identityEntry_lt (by omega) hflags'), hword]
      · -- an earlier table is another page
        have hother := (D.tables_page i (by omega)).apart (D.tables_page n (by omega))
          fun heq => hin (D.tables_inj _ _ (by omega) (by omega) heq)
        simp only [pagingPageSize] at hother
        rw [(sameOutside_fillTable _ _ _ _ _).read32 (by simp only [pagingTotalEntriesPerTable]; omega),
          (sameOutside_fill _ _ _ _).read32 (by simp only [pagingPageSize]; omega)]
        exact iht i j (by omega) hj

/-- A present flag stays the lowest bit beside the writable one. -/
theorem or_writable_present : ∀ flags, flags < 2 ^ 8 → flags % 2 = 1 →
    (flags ||| pagingMasksIsWritable) % 2 = 1 := by
  intro flags _ hpresent
  have h : flags &&& 1 = 1 := by rw [Nat.and_one_is_mod]; exact hpresent
  rw [← Nat.and_one_is_mod, Nat.and_or_distrib_right, h]
  decide

/-- **The whole loop leaves the identity directory.** -/
theorem tables_generated {flags : Nat} (mem : Memory) (hflags : flags < 2 ^ 8) (hpresent : flags % 2 = 1) :
    Tables D (identityEntry flags) (generated D.directory flags D.tables mem 1024) := by
  obtain ⟨hd, ht⟩ := generated_spec (D := D) mem hflags (Nat.le_refl 1024)
  refine ⟨fun i hi => ⟨flags ||| pagingMasksIsWritable, ?_, or_writable_present flags hflags hpresent, ?_⟩,
    fun k hk => ?_⟩
  · have : flags ||| pagingMasksIsWritable < 2 ^ 8 := Nat.or_lt_two_pow hflags (by decide)
    simp only [pagingPageSize]
    omega
  · have hlow : flags ||| pagingMasksIsWritable < 2 ^ 8 := Nat.or_lt_two_pow hflags (by decide)
    rw [hd i hi, Nat.or_assoc, or_flags (D.tables_page i hi).1 (by simp only [pagingPageSize]; omega)]
  · rw [ht (k / 1024) (k % 1024) (by omega) (by omega), Nat.div_add_mod]

/-- The words of the directory are the addresses of the tables, with flags in the low bits. -/
def DirectoryBlocks.Addressed (D : DirectoryBlocks) (mem : Memory) : Prop :=
  ∀ i, i < 1024 → read32 mem (D.directory + 4 * i) &&& 0xFFFFF000 = D.tables i

/-- So they are whatever the flags. -/
theorem addressed_generated {flags : Nat} (mem : Memory) (hflags : flags < 2 ^ 8) :
    D.Addressed (generated D.directory flags D.tables mem 1024) := by
  intro i hi
  obtain ⟨halign, hend⟩ := D.tables_page i hi
  have hlow : flags ||| pagingMasksIsWritable < 2 ^ 8 := Nat.or_lt_two_pow hflags (by decide)
  have hword : D.tables i ||| flags ||| pagingMasksIsWritable = D.tables i + (flags ||| pagingMasksIsWritable) := by
    rw [Nat.or_assoc, or_flags halign (by simp only [pagingPageSize]; omega)]
  simp only [pagingPageSize] at halign hend
  rw [(generated_spec mem hflags (Nat.le_refl 1024)).1 i hi, hword, and_pageMask (by omega)]
  simp only [pagingPageSize]
  omega

/-! ### The call -/

section Call

variable {H : Type} {A : Allocator H} {heaps : Nat → H} {blocks : Nat → Nat}

/-- The allocator answers the requests of `_gen_paging_4gb` with the blocks, which are different pages. -/
structure Serves (A : Allocator H) (heaps : Nat → H) (blocks : Nat → Nat) : Prop where
  pages : ∀ i, i ≤ 1024 → A.kmalloc (4 * pagingTotalEntriesPerTable) (heaps i) = some (blocks i, heaps (i + 1))
  chunk : A.kmalloc 4 (heaps 1025) = some (blocks 1025, heaps 1026)
  null : ∀ i, i ≤ 1025 → blocks i ≠ 0
  page : ∀ i, i ≤ 1025 → IsPage (blocks i)
  distinct : ∀ i j, i ≤ 1025 → j ≤ 1025 → blocks i = blocks j → i = j

/-- The blocks of the sequence as a directory, its tables and its memory map. -/
def directoryOfBlocks (blocks : Nat → Nat) (hpage : ∀ i, i ≤ 1025 → IsPage (blocks i))
    (hinj : ∀ i j, i ≤ 1025 → j ≤ 1025 → blocks i = blocks j → i = j) : DirectoryBlocks where
  directory := blocks 0
  tables i := blocks (1 + i)
  directory_page := hpage 0 (by omega)
  tables_page i hi := hpage (1 + i) (by omega)
  tables_ne i hi heq := by
    have := hinj _ _ (by omega) (by omega) heq
    omega
  tables_inj i j hi hj heq := by
    have := hinj _ _ (by omega) (by omega) heq
    omega

theorem kzalloc_answered {size ptr : Nat} {heap heap' : H} (h : A.kmalloc size heap = some (ptr, heap')) (hne : ptr ≠ 0)
    (mem : Memory) : kzalloc A size ⟨heap, mem⟩ = .ok (ptr, ⟨heap', fill mem ptr size 0⟩) := by
  unfold kzalloc
  refine Program.bind_ok.mpr ⟨ptr, ⟨heap', mem⟩, ?_, ?_⟩
  · unfold kmalloc
    rw [h]
  · rw [if_neg hne]
    rfl

/-- The loop takes its tables from the sequence. -/
theorem Serves.genTables (h : Serves A heaps blocks) (directory flags : Nat) (mem : Memory) {n : Nat} (hn : n ≤ 1024) :
    genTables A directory flags n ⟨heaps 1, mem⟩ =
      .ok (s32 (n * (pagingTotalEntriesPerTable * pagingPageSize)),
        ⟨heaps (1 + n), generated directory flags (fun i => blocks (1 + i)) mem n⟩) := by
  induction n with
  | zero => rfl
  | succ n ih =>
    have hanswer := h.pages (1 + n) (by omega)
    have hne := h.null (1 + n) (by omega)
    refine Program.bind_ok.mpr ⟨_, _, ih (by omega), ?_⟩
    refine Program.bind_ok.mpr ⟨_, _, kzalloc_answered hanswer hne _, ?_⟩
    rw [Program.when_false hne]
    have hoffset : s32 (u32OfInt (s32 (n * (pagingTotalEntriesPerTable * pagingPageSize))) +
        pagingTotalEntriesPerTable * pagingPageSize) =
        s32 ((n + 1) * (pagingTotalEntriesPerTable * pagingPageSize)) := by
      rw [u32OfInt_s32, Nat.add_mul n 1, Nat.one_mul]
      unfold s32 u32
      rw [Nat.mod_add_mod]
    show Except.ok _ = _
    rw [hoffset]
    rfl

/-- **The call takes the blocks** and leaves in the first of them and the tables what its loops
write, and in the last the address of the first. -/
theorem Serves.genPaging4gb (h : Serves A heaps blocks) (flags : Nat) (start : Memory) :
    ∃ mem, genPaging4gb A flags ⟨heaps 0, start⟩ = .ok (blocks 1025, ⟨heaps 1026, mem⟩) ∧
      ChunkOf (directoryOfBlocks blocks h.page h.distinct) (blocks 1025) mem ∧
      ∃ zeroed, (∀ b, Extent.Holds ⟨blocks 0, pagingPageSize⟩ b ∨
          (directoryOfBlocks blocks h.page h.distinct).InTables b →
        mem b = generated (blocks 0) flags (fun i => blocks (1 + i)) zeroed 1024 b) := by
  let chunk := blocks 1025
  let zeroed := fill start (blocks 0) (4 * pagingTotalTableEntriesPerDirectory) 0
  let filled := generated (blocks 0) flags (fun i => blocks (1 + i)) zeroed 1024
  let made := write32 (fill filled chunk 4 0) chunk (blocks 0)
  -- the memory map is a page of its own
  have hapart : ∀ i, i ≤ 1024 → blocks i + pagingPageSize ≤ chunk ∨ chunk + pagingPageSize ≤ blocks i := by
    intro i hi
    refine (h.page i (by omega)).apart (h.page 1025 (by omega)) fun heq => ?_
    have := h.distinct _ _ (by omega) (by omega) heq
    omega
  have hsame : ∀ b, b < chunk ∨ chunk + 4 ≤ b → made b = filled b := by
    intro b hb
    have hb' : ¬ Extent.Holds ⟨chunk, 4⟩ b := by rw [Extent.holds_mk]; omega
    exact (sameOutside_write32 _ _ _ b hb').trans (sameOutside_fill _ _ _ _ b hb')
  have hfirst := (h.page 0 (by omega)).2
  refine ⟨made, ?_, ⟨read32_write32 _ _ (by simp only [pagingPageSize] at hfirst; omega), ?_⟩, zeroed, ?_⟩
  · refine Program.bind_ok.mpr ⟨_, _, kzalloc_answered (h.pages 0 (by omega)) (h.null 0 (by omega)) _, ?_⟩
    rw [Program.when_false (h.null 0 (by omega))]
    refine Program.bind_ok.mpr ⟨_, _, rfl, ?_⟩
    refine Program.bind_ok.mpr ⟨_, _, h.genTables _ _ _ (Nat.le_refl 1024), ?_⟩
    refine Program.bind_ok.mpr ⟨_, _, kzalloc_answered h.chunk (h.null 1025 (by omega)) _, ?_⟩
    rw [Program.when_false (h.null 1025 (by omega))]
    rfl
  · rintro b h1 h2 ⟨i, hi, hheld⟩
    have := hapart (1 + i) (by omega)
    rw [Extent.holds_mk] at hheld
    simp only [pagingPageSize, directoryOfBlocks] at *
    omega
  · rintro b (hb | ⟨i, hi, hheld⟩)
    · have := hapart 0 (by omega)
      rw [Extent.holds_mk] at hb
      simp only [pagingPageSize] at *
      exact hsame b (by omega)
    · have := hapart (1 + i) (by omega)
      rw [Extent.holds_mk] at hheld
      simp only [pagingPageSize, directoryOfBlocks] at *
      exact hsame b (by omega)

end Call

end BasicOS

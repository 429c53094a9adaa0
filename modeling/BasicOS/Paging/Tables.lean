import BasicOS.Paging.Directory

/-! A page directory in memory as a flat table of pages.

`DirectoryBlocks` is where a directory lives: the page of the directory and the pages of
its 1024 tables, all different. `Tables D entry mem` says that memory holds there a
directory whose entry for page `k` of the address space is the word `entry k`. Reading
an address reads that word (`Tables.get`), writing one changes that word and nothing
else (`Tables.set`), and both need only that the index split of an address is one to one
and that no two tables are the same page. -/
namespace BasicOS
open Lib

/-! ### Masks and indexes -/

/-- Clearing the low twelve bits rounds down to the page. -/
theorem and_pageMask {n : Nat} (h : n < 2 ^ 32) : n &&& 0xFFFFF000 = n - n % pagingPageSize := by
  have hmask : (0xFFFFF000 : Nat) = (2 ^ 20 - 1) <<< 12 := by decide
  have hround : n - n % pagingPageSize = (n >>> 12) <<< 12 := by
    rw [Nat.shiftLeft_eq, Nat.shiftRight_eq_div_pow]
    simp only [pagingPageSize]
    omega
  rw [hround, hmask]
  apply Nat.eq_of_testBit_eq
  intro i
  rw [Nat.testBit_and, Nat.testBit_shiftLeft, Nat.testBit_shiftLeft, Nat.testBit_two_pow_sub_one,
    Nat.testBit_shiftRight]
  by_cases hi : 12 ≤ i
  · rw [show 12 + (i - 12) = i by omega]
    by_cases hi32 : i < 32
    · simp [hi, show i - 12 < 20 by omega]
    · rw [Nat.testBit_lt_two_pow (Nat.lt_of_lt_of_le h (Nat.pow_le_pow_right (by decide) (by omega)))]
      simp
  · simp [hi]

/-- Flags below a page go into the low bits of a page address. -/
theorem or_flags {p f : Nat} (hp : p % pagingPageSize = 0) (hf : f < pagingPageSize) : p ||| f = p + f := by
  have hp' : p = 2 ^ 12 * (p / pagingPageSize) := by
    simp only [pagingPageSize] at *
    omega
  have h := Nat.two_pow_add_eq_or_of_lt (show f < 2 ^ 12 by simpa [pagingPageSize] using hf) (p / pagingPageSize)
  rw [← hp'] at h
  exact h.symm

theorem pagingIsAligned_iff (a : Nat) : pagingIsAligned a = true ↔ a % pagingPageSize = 0 := by
  simp [pagingIsAligned]

/-- The indexes of a page address are the quotient and the remainder of its page number. -/
theorem pagingGetIndexes_page (k d t : Nat) :
    pagingGetIndexes (k * pagingPageSize) d t =
      (0, k / pagingTotalTableEntriesPerDirectory, k % pagingTotalEntriesPerTable) := by
  have halign : pagingIsAligned (k * pagingPageSize) = true := by
    rw [pagingIsAligned_iff]
    exact Nat.mul_mod_left _ _
  unfold pagingGetIndexes
  rw [halign]
  simp only [Bool.not_true, Bool.false_eq_true, if_false, pagingTotalTableEntriesPerDirectory, pagingPageSize,
    pagingTotalEntriesPerTable, Prod.mk.injEq, true_and]
  omega

/-! ### Where a directory lives -/

/-- A page of the 32-bit address space. -/
def IsPage (a : Nat) : Prop := a % pagingPageSize = 0 ∧ a + pagingPageSize ≤ 2 ^ 32

/-- The pages of a directory and of its tables. -/
structure DirectoryBlocks where
  directory : Nat
  tables : Nat → Nat
  directory_page : IsPage directory
  tables_page : ∀ i, i < 1024 → IsPage (tables i)
  tables_ne : ∀ i, i < 1024 → tables i ≠ directory
  tables_inj : ∀ i j, i < 1024 → j < 1024 → tables i = tables j → i = j

/-- The byte lies in one of the tables. -/
def DirectoryBlocks.InTables (D : DirectoryBlocks) (b : Nat) : Prop :=
  ∃ i, i < 1024 ∧ Extent.Holds ⟨D.tables i, pagingPageSize⟩ b

/-- The memory differs from `m` at most inside the tables. -/
def DirectoryBlocks.SameElsewhere (D : DirectoryBlocks) (m m' : Memory) : Prop :=
  ∀ b, ¬ D.InTables b → m' b = m b

/-- Memory holds a directory at `D` whose entry for page `k` is `entry k`. -/
structure Tables (D : DirectoryBlocks) (entry : Nat → Nat) (mem : Memory) : Prop where
  directory : ∀ i, i < 1024 → ∃ bits, bits < pagingPageSize ∧ bits % 2 = 1 ∧
    read32 mem (D.directory + 4 * i) = D.tables i + bits
  entries : ∀ k, k < 2 ^ 20 → read32 mem (D.tables (k / 1024) + 4 * (k % 1024)) = entry k

/-- Different pages of the address space are apart. -/
theorem IsPage.apart {a b : Nat} (ha : IsPage a) (hb : IsPage b) (hne : a ≠ b) :
    a + pagingPageSize ≤ b ∨ b + pagingPageSize ≤ a := by
  obtain ⟨ha, _⟩ := ha
  obtain ⟨hb, _⟩ := hb
  simp only [pagingPageSize] at *
  omega

/-- The directory's word for a table gives the table's address, and is present. -/
theorem Tables.table {D : DirectoryBlocks} {entry : Nat → Nat} {mem : Memory} (h : Tables D entry mem) {i : Nat}
    (hi : i < 1024) : read32 mem (D.directory + 4 * i) &&& 0xFFFFF000 = D.tables i ∧
      read32 mem (D.directory + 4 * i) &&& 0x1 ≠ 0 := by
  obtain ⟨bits, hbits, hodd, hread⟩ := h.directory i hi
  have hlt := read32_lt mem (D.directory + 4 * i)
  have hpage := (D.tables_page i hi).1
  constructor
  · rw [and_pageMask hlt, hread]
    simp only [pagingPageSize] at *
    omega
  · rw [Nat.and_one_is_mod, hread]
    simp only [pagingPageSize] at *
    omega

/-- The word of page `k` is what `paging_get` reads. -/
theorem Tables.get {D : DirectoryBlocks} {entry : Nat → Nat} {mem : Memory} (h : Tables D entry mem) {k : Nat}
    (hk : k < 2 ^ 20) : pagingGet mem D.directory (k * pagingPageSize) = entry k := by
  have hi : k / 1024 < 1024 := by omega
  obtain ⟨htable, hpresent⟩ := h.table hi
  unfold pagingGet
  rw [pagingGetIndexes_page]
  simp only [pagingTotalTableEntriesPerDirectory, pagingTotalEntriesPerTable, htable, if_neg hpresent]
  exact h.entries k hk

/-- Every address is translated through the word of its page. -/
theorem Tables.translate {D : DirectoryBlocks} {entry : Nat → Nat} {mem : Memory} (h : Tables D entry mem) {a : Nat}
    (ha : a < 2 ^ 32) (hentry : entry (a / pagingPageSize) < 2 ^ 32) :
    pagingGetPhysicalAddress mem D.directory a =
      entry (a / pagingPageSize) - entry (a / pagingPageSize) % pagingPageSize + a % pagingPageSize := by
  have halign : pagingAlignToLowerPageAddr a = a / pagingPageSize * pagingPageSize := by
    unfold pagingAlignToLowerPageAddr
    simp only [pagingPageSize]
    omega
  have hdiff : a - a / pagingPageSize * pagingPageSize = a % pagingPageSize := by
    simp only [pagingPageSize]
    omega
  unfold pagingGetPhysicalAddress
  simp only [halign, hdiff]
  rw [h.get (by simp only [pagingPageSize]; omega), and_pageMask hentry, u32_of_lt]
  simp only [pagingPageSize] at *
  omega

/-- Memory that agrees on the directory and its tables holds the same directory. -/
theorem Tables.congr {D : DirectoryBlocks} {entry : Nat → Nat} {mem mem' : Memory} (h : Tables D entry mem)
    (hd : ∀ b, Extent.Holds ⟨D.directory, pagingPageSize⟩ b → mem' b = mem b)
    (ht : ∀ b, D.InTables b → mem' b = mem b) : Tables D entry mem' := by
  refine ⟨fun i hi => ?_, fun k hk => ?_⟩
  · rw [read32_congr fun b h1 h2 => hd b (by rw [Extent.holds_mk]; simp only [pagingPageSize]; omega)]
    exact h.directory i hi
  · rw [read32_congr fun b h1 h2 => ht b ⟨k / 1024, by omega, by
      rw [Extent.holds_mk]
      simp only [pagingPageSize]
      omega⟩]
    exact h.entries k hk

/-- Writing the word of page `k`. -/
theorem Tables.write {D : DirectoryBlocks} {entry : Nat → Nat} {mem : Memory} (h : Tables D entry mem) {k val : Nat}
    (hk : k < 2 ^ 20) (hval : val < 2 ^ 32) :
    Tables D (Function.update entry k val) (write32 mem (D.tables (k / 1024) + 4 * (k % 1024)) val) ∧
      D.SameElsewhere mem (write32 mem (D.tables (k / 1024) + 4 * (k % 1024)) val) := by
  have hki : k / 1024 < 1024 := by omega
  refine ⟨⟨fun i hi => ?_, fun j hj => ?_⟩, fun b hb => ?_⟩
  · -- the directory is another page than the table written
    have hapart := (D.tables_page (k / 1024) hki).apart D.directory_page (D.tables_ne _ hki)
    rw [read32_write32_apart mem val (by simp only [pagingPageSize] at hapart; omega)]
    exact h.directory i hi
  · by_cases hjk : j = k
    · subst hjk
      rw [read32_write32 mem _ hval, Function.update_self]
    · rw [Function.update_of_ne hjk, read32_write32_apart mem val, h.entries j hj]
      by_cases hsame : j / 1024 = k / 1024
      · rw [hsame]
        omega
      · -- different tables are different pages
        have hapart := (D.tables_page (j / 1024) (by omega)).apart (D.tables_page (k / 1024) hki)
          fun heq => hsame (D.tables_inj _ _ (by omega) hki heq)
        simp only [pagingPageSize] at hapart
        omega
  · refine sameOutside_write32 mem _ val b fun hheld => hb ⟨k / 1024, hki, ?_⟩
    rw [Extent.holds_mk] at hheld ⊢
    simp only [pagingPageSize]
    omega

/-- `paging_set` on a page writes its word. -/
theorem Tables.pagingSet_eq {D : DirectoryBlocks} {entry : Nat → Nat} {mem : Memory} (h : Tables D entry mem) {k : Nat}
    (hk : k < 2 ^ 20) (val : Nat) : pagingSet mem D.directory (k * pagingPageSize) val =
      (0, write32 mem (D.tables (k / 1024) + 4 * (k % 1024)) val) := by
  have halign : pagingIsAligned (k * pagingPageSize) = true := by
    rw [pagingIsAligned_iff]
    exact Nat.mul_mod_left _ _
  unfold pagingSet
  rw [halign, pagingGetIndexes_page]
  simp only [Bool.not_true, Bool.false_eq_true, if_false, Int.lt_irrefl,
    (h.table (show k / pagingTotalTableEntriesPerDirectory < 1024 by
      simp only [pagingTotalTableEntriesPerDirectory]; omega)).1,
    pagingTotalTableEntriesPerDirectory, pagingTotalEntriesPerTable]

theorem Tables.set {D : DirectoryBlocks} {entry : Nat → Nat} {mem : Memory} (h : Tables D entry mem) {k val : Nat}
    (hk : k < 2 ^ 20) (hval : val < 2 ^ 32) :
    (pagingSet mem D.directory (k * pagingPageSize) val).1 = 0 ∧
      Tables D (Function.update entry k val) (pagingSet mem D.directory (k * pagingPageSize) val).2 ∧
      D.SameElsewhere mem (pagingSet mem D.directory (k * pagingPageSize) val).2 := by
  rw [h.pagingSet_eq hk]
  exact ⟨rfl, h.write hk hval⟩

end BasicOS

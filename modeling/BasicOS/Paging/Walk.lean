import BasicOS.Lib.PageWalk
import BasicOS.Paging.Translation

/-! The processor's page walk over the directories of the kernel.

Where memory holds a directory with the words `entry`, the walk of `Lib.PageWalk` finds the
word of every page, and user mode reads through the pages that were mapped last. `flatMemory`
is a memory with any given words for the pages, and any bytes above its tables. -/
namespace BasicOS
open Lib

variable {D : DirectoryBlocks} {entry : Nat → Nat} {mem : Memory} {history : List (Nat × Nat)} {v : Nat}

/-- The processor's walk finds the word of the page. -/
theorem Tables.pageEntry (h : Tables D entry mem) (hv : v < 2 ^ 32) :
    directoryEntry mem D.directory v % 2 = 1 ∧ Lib.pageEntry mem D.directory v = entry (v / pagingPageSize) := by
  have hi : v / 2 ^ 22 < 1024 := by omega
  obtain ⟨htable, _⟩ := h.table hi
  obtain ⟨bits, _, hodd, hread⟩ := h.directory _ hi
  have hpage := (D.tables_page _ hi).1
  refine ⟨?_, ?_⟩
  · show read32 mem (D.directory + 4 * (v / 2 ^ 22)) % 2 = 1
    rw [hread]
    simp only [pagingPageSize] at hpage
    omega
  · have hk : v / pagingPageSize < 2 ^ 20 := by
      simp only [pagingPageSize]
      omega
    have hentries := h.entries _ hk
    rw [show v / pagingPageSize / 1024 = v / 2 ^ 22 by simp only [pagingPageSize]; omega,
      show v / pagingPageSize % 1024 = v / 2 ^ 12 % 2 ^ 10 by simp only [pagingPageSize]; omega] at hentries
    show read32 mem ((read32 mem (D.directory + 4 * (v / 2 ^ 22)) &&& 0xFFFFF000) + _) = _
    rw [htable]
    exact hentries

theorem Tables.physicalAddress (h : Tables D entry mem) (hv : v < 2 ^ 32) :
    Lib.physicalAddress mem D.directory v = (entry (v / pagingPageSize) &&& 0xFFFFF000) + v % pagingPageSize := by
  unfold Lib.physicalAddress
  rw [(h.pageEntry hv).2]
  rfl

/-- A process sees the pages that were mapped last. -/
theorem Tables.userView (h : Tables D entry mem) (hfollows : Follows entry history) (hv : v < 2 ^ 32) :
    Lib.userView mem D.directory v = mem (translation history v) := by
  obtain ⟨hentry, hpage⟩ := hfollows (v / pagingPageSize) (by simp only [pagingPageSize]; omega)
  unfold Lib.userView
  rw [Nat.mod_eq_of_lt hv, h.physicalAddress hv, and_pageMask hentry, hpage, translation_offset history v]

/-! ### Memory with given words -/

theorem isPage_low (k : Nat) (hk : k < 2 ^ 12) : IsPage (k * 0x1000) := by
  unfold IsPage
  simp only [pagingPageSize]
  omega

/-- A directory at 0x200000 with its tables from 0x400000 on. -/
def lowDirectory : DirectoryBlocks where
  directory := 0x200000
  tables i := (0x400 + i) * 0x1000
  directory_page := isPage_low 0x200 (by decide)
  tables_page i hi := isPage_low (0x400 + i) (by omega)
  tables_ne i hi := by omega
  tables_inj i j hi hj heq := by omega

/-- The words of that directory, its tables, and the memory map before them. -/
def directoryWord (entry : Nat → Nat) (n : Nat) : Nat :=
  if 0x100000 ≤ n then entry (n - 0x100000)
  else if 0x80000 ≤ n ∧ n < 0x80400 then (0x400 + (n - 0x80000)) * 0x1000 + 7
  else if n = 0x7FC00 then 0x200000
  else 0

/-- Those words below 0x800000, and other bytes above. -/
def flatMemory (entry : Nat → Nat) (above : Memory) : Memory := fun a =>
  if a < 0x800000 then UInt8.ofNat (directoryWord entry (a / 4) / 2 ^ (8 * (a % 4))) else above a

theorem flatMemory_word {entry : Nat → Nat} (above : Memory) {n : Nat} (hn : n < 0x200000)
    (hword : directoryWord entry n < 2 ^ 32) : read32 (flatMemory entry above) (4 * n) = directoryWord entry n := by
  have hbyte : ∀ j, j < 4 → (flatMemory entry above (4 * n + j)).toNat = directoryWord entry n / 2 ^ (8 * j) % 2 ^ 8 := by
    intro j hj
    unfold flatMemory
    rw [if_pos (by omega), UInt8.toNat_ofNat', show (4 * n + j) / 4 = n by omega, show (4 * n + j) % 4 = j by omega]
  have h0 := hbyte 0 (by decide)
  unfold read32
  rw [hbyte 1 (by decide), hbyte 2 (by decide), hbyte 3 (by decide)]
  rw [Nat.add_zero] at h0
  rw [h0]
  omega

theorem flatMemory_tables {entry : Nat → Nat} (hentry : ∀ k, k < 2 ^ 20 → entry k < 2 ^ 32) (above : Memory) :
    Tables lowDirectory entry (flatMemory entry above) := by
  constructor
  · intro i hi
    have hword : directoryWord entry (0x80000 + i) = (0x400 + i) * 0x1000 + 7 := by
      unfold directoryWord
      rw [if_neg (by omega), if_pos (by omega), Nat.add_sub_cancel_left]
    have hread := flatMemory_word above (n := 0x80000 + i) (by omega) (by rw [hword]; omega)
    refine ⟨7, by decide, rfl, ?_⟩
    rw [hword] at hread
    rw [← show 4 * (0x80000 + i) = lowDirectory.directory + 4 * i by simp only [lowDirectory]; omega]
    exact hread
  · intro k hk
    have hword : directoryWord entry (0x100000 + k) = entry k := by
      unfold directoryWord
      rw [if_pos (by omega), Nat.add_sub_cancel_left]
    have hread := flatMemory_word above (n := 0x100000 + k) (by omega) (by rw [hword]; exact hentry k hk)
    rw [hword] at hread
    rw [← show 4 * (0x100000 + k) = lowDirectory.tables (k / 1024) + 4 * (k % 1024) by simp only [lowDirectory]; omega]
    exact hread

theorem lowDirectory_inTables {b : Nat} (h : lowDirectory.InTables b) : 0x400000 ≤ b ∧ b < 0x800000 := by
  obtain ⟨i, hi, hheld⟩ := h
  rw [Extent.holds_mk] at hheld
  simp only [lowDirectory, pagingPageSize] at hheld
  omega

theorem flatMemory_chunk (entry : Nat → Nat) (above : Memory) :
    ChunkOf lowDirectory 0x1FF000 (flatMemory entry above) := by
  have hword : directoryWord entry 0x7FC00 = 0x200000 := rfl
  have hread := flatMemory_word above (n := 0x7FC00) (by decide) (by rw [hword]; decide)
  rw [hword] at hread
  refine ⟨?_, fun b h1 h2 hin => ?_⟩
  · rw [show 0x1FF000 = 4 * 0x7FC00 by decide, hread]
    rfl
  · have := lowDirectory_inTables hin
    omega

end BasicOS

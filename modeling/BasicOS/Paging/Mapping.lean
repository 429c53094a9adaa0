import BasicOS.Paging.Tables

/-! What the mapping calls do to a directory.

`paging_map` writes one entry, `paging_map_range` and `paging_map_to` one for each page
of the range, in order, and wrap around with their addresses at 4 GiB. `pagesFrom` is
that list of pages and `mapEntries` its effect on the flat table. A call fails only
for an unaligned address (or an end before its start), and then before it has written
anything. -/
namespace BasicOS
open Lib

/-- The pages a range maps: where each of them is and what it is mapped to. -/
def pagesFrom (vAddr pAddr count : Nat) : List (Nat × Nat) :=
  (List.range count).map fun i => (u32 (vAddr + i * pagingPageSize), u32 (pAddr + i * pagingPageSize))

/-- The flat table after mapping the pages in order with the same flags. -/
def mapEntries (entry : Nat → Nat) (bits : Nat) (pages : List (Nat × Nat)) : Nat → Nat :=
  pages.foldl (fun e m => Function.update e (m.1 / pagingPageSize) (m.2 + bits)) entry

theorem pagesFrom_succ {vAddr pAddr : Nat} (count : Nat) (hv : vAddr < 2 ^ 32) (hp : pAddr < 2 ^ 32) :
    pagesFrom vAddr pAddr (count + 1) =
      (vAddr, pAddr) :: pagesFrom (u32 (vAddr + pagingPageSize)) (u32 (pAddr + pagingPageSize)) count := by
  unfold pagesFrom
  rw [List.range_succ_eq_map, List.map_cons, List.map_map]
  refine List.cons_eq_cons.mpr ⟨?_, ?_⟩
  · rw [Nat.zero_mul, Nat.add_zero, Nat.add_zero, u32_of_lt hv, u32_of_lt hp]
  · apply List.map_congr_left
    intro i _
    simp only [Function.comp, Prod.mk.injEq, u32, pagingPageSize]
    omega

theorem mapEntries_cons (entry : Nat → Nat) (bits : Nat) (m : Nat × Nat) (pages : List (Nat × Nat)) :
    mapEntries entry bits (m :: pages) =
      mapEntries (Function.update entry (m.1 / pagingPageSize) (m.2 + bits)) bits pages := rfl

/-- A page of the flat table after a mapping: one of the pages mapped, or what it was. -/
theorem mapEntries_apply (entry : Nat → Nat) (bits : Nat) (pages : List (Nat × Nat)) (k : Nat) :
    (∃ m ∈ pages, m.1 / pagingPageSize = k ∧ mapEntries entry bits pages k = m.2 + bits) ∨
      ((∀ m ∈ pages, m.1 / pagingPageSize ≠ k) ∧ mapEntries entry bits pages k = entry k) := by
  induction pages generalizing entry with
  | nil => exact .inr ⟨fun m hm => (by cases hm), rfl⟩
  | cons m rest ih =>
    rw [mapEntries_cons]
    rcases ih (Function.update entry (m.1 / pagingPageSize) (m.2 + bits)) with ⟨n, hn, hk, heq⟩ | ⟨hnone, heq⟩
    · exact .inl ⟨n, List.mem_cons_of_mem m hn, hk, heq⟩
    · by_cases hmk : m.1 / pagingPageSize = k
      · refine .inl ⟨m, List.mem_cons_self .., hmk, ?_⟩
        rw [heq, hmk, Function.update_self]
      · refine .inr ⟨fun n hn => ?_, ?_⟩
        · rcases List.mem_cons.mp hn with rfl | hn
          · exact hmk
          · exact hnone n hn
        · rw [heq, Function.update_of_ne (Ne.symm hmk)]

/-- The pages of a range that does not wrap. -/
theorem mem_pagesFrom {vAddr pAddr count : Nat} (hv : vAddr + count * pagingPageSize ≤ 2 ^ 32)
    (hp : pAddr + count * pagingPageSize ≤ 2 ^ 32) {m : Nat × Nat} :
    m ∈ pagesFrom vAddr pAddr count ↔ ∃ i, i < count ∧ m = (vAddr + i * pagingPageSize,
      pAddr + i * pagingPageSize) := by
  unfold pagesFrom
  simp only [List.mem_map, List.mem_range]
  constructor
  · rintro ⟨i, hi, rfl⟩
    refine ⟨i, hi, ?_⟩
    rw [u32_of_lt (by simp only [pagingPageSize] at *; omega), u32_of_lt (by simp only [pagingPageSize] at *; omega)]
  · rintro ⟨i, hi, rfl⟩
    refine ⟨i, hi, ?_⟩
    rw [u32_of_lt (by simp only [pagingPageSize] at *; omega), u32_of_lt (by simp only [pagingPageSize] at *; omega)]

/-- The next page of a range is a page too, also where the range wraps. -/
theorem u32_add_page {a : Nat} (h : a % pagingPageSize = 0) : u32 (a + pagingPageSize) % pagingPageSize = 0 := by
  simp only [u32, pagingPageSize] at *
  omega

/-! ### Where the directory is -/

/-- The memory map `chunk` points to the directory and is not part of a table. -/
structure ChunkOf (D : DirectoryBlocks) (chunk : Nat) (mem : Memory) : Prop where
  directory : read32 mem chunk = D.directory
  outside : ∀ b, chunk ≤ b → b < chunk + 4 → ¬ D.InTables b

theorem ChunkOf.congr {D : DirectoryBlocks} {chunk : Nat} {mem mem' : Memory} (h : ChunkOf D chunk mem)
    (hmem : D.SameElsewhere mem mem') : ChunkOf D chunk mem' :=
  ⟨(read32_congr fun b h1 h2 => hmem b (h.outside b h1 h2)).trans h.directory, h.outside⟩

variable {D : DirectoryBlocks} {chunk : Nat} {entry : Nat → Nat} {mem : Memory}

/-! ### Calls that succeed -/

theorem Tables.map (h : Tables D entry mem) (hchunk : ChunkOf D chunk mem) {vAddr pAddr : Nat} {flags : Int}
    (hv : vAddr % pagingPageSize = 0) (hp : pAddr % pagingPageSize = 0) (hv32 : vAddr < 2 ^ 32)
    (hp32 : pAddr < 2 ^ 32) (hflags : 0 ≤ flags ∧ flags < pagingPageSize) :
    (pagingMap mem chunk vAddr pAddr flags).1 = 0 ∧
      Tables D (Function.update entry (vAddr / pagingPageSize) (pAddr + flags.toNat))
        (pagingMap mem chunk vAddr pAddr flags).2 ∧
      D.SameElsewhere mem (pagingMap mem chunk vAddr pAddr flags).2 := by
  have hbits : u32OfInt flags = flags.toNat := by
    simp only [u32OfInt, pagingPageSize] at *
    omega
  have hv' : vAddr = vAddr / pagingPageSize * pagingPageSize := by
    simp only [pagingPageSize] at *
    omega
  have hword : pAddr ||| u32OfInt flags = pAddr + flags.toNat := by
    rw [hbits]
    exact or_flags hp (by simp only [pagingPageSize] at *; omega)
  unfold pagingMap
  rw [if_neg (by simp [hv, hp]), hword, hchunk.directory]
  have hset := h.set (show vAddr / pagingPageSize < 2 ^ 20 by simp only [pagingPageSize]; omega)
    (show pAddr + flags.toNat < 2 ^ 32 by simp only [pagingPageSize] at *; omega)
  rw [← hv'] at hset
  exact hset

/-- The loop of `paging_map_range` over aligned addresses. -/
theorem Tables.mapRangeFrom {vAddr pAddr : Nat} {flags : Int} (h : Tables D entry mem)
    (hchunk : ChunkOf D chunk mem) (hv : vAddr % pagingPageSize = 0) (hp : pAddr % pagingPageSize = 0)
    (hv32 : vAddr < 2 ^ 32) (hp32 : pAddr < 2 ^ 32) (hflags : 0 ≤ flags ∧ flags < pagingPageSize) (count : Nat) :
    (pagingMapRangeFrom chunk flags count mem vAddr pAddr 0).1 = 0 ∧
      Tables D (mapEntries entry flags.toNat (pagesFrom vAddr pAddr count))
        (pagingMapRangeFrom chunk flags count mem vAddr pAddr 0).2 ∧
      D.SameElsewhere mem (pagingMapRangeFrom chunk flags count mem vAddr pAddr 0).2 := by
  induction count generalizing mem entry vAddr pAddr with
  | zero => exact ⟨rfl, h, fun _ _ => rfl⟩
  | succ count ih =>
    obtain ⟨hres, htables, hsame⟩ := h.map hchunk hv hp hv32 hp32 hflags
    unfold pagingMapRangeFrom
    simp only [hres, Int.lt_irrefl, if_false]
    rw [pagesFrom_succ count hv32 hp32, mapEntries_cons]
    obtain ⟨hres', htables', hsame'⟩ := ih htables (hchunk.congr hsame) (u32_add_page hv) (u32_add_page hp)
      (u32_lt _) (u32_lt _)
    exact ⟨hres', htables', fun b hb => (hsame' b hb).trans (hsame b hb)⟩

/-- `paging_map_to` maps the pages of an aligned range. -/
theorem Tables.mapTo_aligned (h : Tables D entry mem) (hchunk : ChunkOf D chunk mem) {vAddr pAddr pAddrEnd : Nat}
    {flags : Int} (hv : vAddr % pagingPageSize = 0) (hp : pAddr % pagingPageSize = 0)
    (hend : pAddrEnd % pagingPageSize = 0) (hle : pAddr ≤ pAddrEnd) (hv32 : vAddr < 2 ^ 32) (hp32 : pAddr < 2 ^ 32)
    (hflags : 0 ≤ flags ∧ flags < pagingPageSize) :
    (pagingMapTo mem chunk vAddr pAddr pAddrEnd flags).1 = 0 ∧
      Tables D (mapEntries entry flags.toNat (pagesFrom vAddr pAddr ((pAddrEnd - pAddr) / pagingPageSize)))
        (pagingMapTo mem chunk vAddr pAddr pAddrEnd flags).2 ∧
      D.SameElsewhere mem (pagingMapTo mem chunk vAddr pAddr pAddrEnd flags).2 := by
  unfold pagingMapTo
  rw [if_neg (by omega)]
  exact h.mapRangeFrom hchunk hv hp hv32 hp32 hflags _

/-- `paging_map_to` either maps its pages or fails and leaves memory alone. -/
theorem Tables.mapTo (h : Tables D entry mem) (hchunk : ChunkOf D chunk mem) {vAddr pAddr pAddrEnd : Nat} {flags : Int}
    (hv32 : vAddr < 2 ^ 32) (hp32 : pAddr < 2 ^ 32) (hflags : 0 ≤ flags ∧ flags < pagingPageSize) :
    pagingMapTo mem chunk vAddr pAddr pAddrEnd flags = (-einvarg, mem) ∨
      (vAddr % pagingPageSize = 0 ∧ pAddr % pagingPageSize = 0 ∧ pAddrEnd % pagingPageSize = 0 ∧ pAddr ≤ pAddrEnd ∧
        (pagingMapTo mem chunk vAddr pAddr pAddrEnd flags).1 = 0 ∧
        Tables D (mapEntries entry flags.toNat (pagesFrom vAddr pAddr ((pAddrEnd - pAddr) / pagingPageSize)))
          (pagingMapTo mem chunk vAddr pAddr pAddrEnd flags).2 ∧
        D.SameElsewhere mem (pagingMapTo mem chunk vAddr pAddr pAddrEnd flags).2) := by
  by_cases hfail : vAddr % pagingPageSize ≠ 0 ∨ pAddr % pagingPageSize ≠ 0 ∨ pAddrEnd % pagingPageSize ≠ 0 ∨
      pAddrEnd < pAddr
  · exact .inl (if_pos hfail)
  · simp only [not_or, not_not] at hfail
    obtain ⟨hv, hp, hend, hle⟩ := hfail
    have hle := Nat.le_of_not_lt hle
    exact .inr ⟨hv, hp, hend, hle, h.mapTo_aligned hchunk hv hp hend hle hv32 hp32 hflags⟩

/-! ### Calls that fail -/

theorem pagingMap_unaligned {vAddr pAddr : Nat} (flags : Int)
    (h : ¬ (vAddr % pagingPageSize = 0 ∧ pAddr % pagingPageSize = 0)) :
    pagingMap mem chunk vAddr pAddr flags = (-einvarg, mem) :=
  if_pos (by omega)

theorem pagingMapRange_unaligned {vAddr pAddr count : Nat} (flags : Int)
    (h : ¬ (vAddr % pagingPageSize = 0 ∧ pAddr % pagingPageSize = 0)) (hcount : 0 < count) :
    pagingMapRange mem chunk vAddr pAddr count flags = (-einvarg, mem) := by
  obtain ⟨n, rfl⟩ : ∃ n, count = n + 1 := ⟨count - 1, by omega⟩
  unfold pagingMapRange pagingMapRangeFrom
  simp only [pagingMap_unaligned flags h]
  rw [if_pos (by decide)]

end BasicOS

import BasicOS.Heap.Table

/-! What the scan of `heap_get_start_block` finds.

`RunFree t s n` says the `n` entries from `s` exist and are free. The scan stops
at the first such run when there is one (`StartBlock.found`). When there is none
it does not fail: it returns the start of the free entries at the end of the
table, however few they are (`StartBlock.short`), and `-ENOMEM` only when the
last entry is taken (`StartBlock.none`). `heapGetStartBlock_spec` says these are
all the cases, for every table of fewer than `2 ^ 32` entries.

`FirstFit` is what the search and `heap_alloc` are for: the least fitting run, and a null
pointer and an untouched table when there is none. They do that exactly when a run fits
(`firstFit_iff`): no pointer `heap_alloc` returns is null. -/
namespace BasicOS

namespace HeapTable

def Free (t : HeapTable) (i : Nat) : Prop := heapGetEntryType (t.entries i) = heapBlockTableEntryFree

instance (t : HeapTable) (i : Nat) : Decidable (t.Free i) := by unfold Free; infer_instance

/-- The entries `s, …, s + n - 1` exist and are free. -/
def RunFree (t : HeapTable) (s n : Nat) : Prop :=
  s + n ≤ t.totalEntries ∧ ∀ i, s ≤ i → i < s + n → t.Free i

instance (t : HeapTable) (s n : Nat) : Decidable (t.RunFree s n) :=
  decidable_of_iff (s + n ≤ t.totalEntries ∧ ∀ i, i < n → t.Free (s + i))
    ⟨fun h => ⟨h.1, fun i hs hi => by
      have hfree := h.2 (i - s) (by omega)
      rwa [Nat.add_sub_cancel' hs] at hfree⟩,
    fun h => ⟨h.1, fun i hi => h.2 (s + i) (by omega) (by omega)⟩⟩

/-- The free entries at the end of the table start at `b`. -/
structure TrailingFree (t : HeapTable) (b : Nat) : Prop where
  lt : b < t.totalEntries
  free : ∀ i, b ≤ i → i < t.totalEntries → t.Free i
  start : b = 0 ∨ ¬ t.Free (b - 1)

/-- No run of `n ≥ 1` free entries starts before `s`. -/
def NoRunBefore (t : HeapTable) (n s : Nat) : Prop := ∀ r, r < s → ¬ t.RunFree r n

instance (t : HeapTable) (n s : Nat) : Decidable (t.NoRunBefore n s) := by
  unfold NoRunBefore
  infer_instance

end HeapTable

open HeapTable

/-- The value the scan returns for a request of `n` blocks. -/
inductive StartBlock (t : HeapTable) (n : Nat) : Int → Prop where
  | found {s} : 1 ≤ n → t.RunFree s n → t.NoRunBefore n s → StartBlock t n (s32 s)
  | short {b} : (n = 0 ∨ ∀ s, ¬ t.RunFree s n) → t.TrailingFree b → StartBlock t n (s32 b)
  | none : (n = 0 ∨ ∀ s, ¬ t.RunFree s n) → (t.totalEntries = 0 ∨ ¬ t.Free (t.totalEntries - 1)) →
      StartBlock t n (-enomem)

/-- The scan's variables at index `i`: no run of `n` ended before `i`, and `bs`
starts the free entries just before `i`, of which there are `bc`. -/
structure Scanned (t : HeapTable) (n i bc : Nat) (bs : Int) : Prop where
  none : ∀ s, 1 ≤ n → s + n ≤ i → ¬ ∀ j, s ≤ j → j < s + n → t.Free j
  cursor : (bs = -1 ∧ bc = 0 ∧ (i = 0 ∨ ¬ t.Free (i - 1))) ∨
    ∃ b, bs = s32 b ∧ b + bc = i ∧ 0 < bc ∧ (∀ j, b ≤ j → j < i → t.Free j) ∧ (b = 0 ∨ ¬ t.Free (b - 1))

theorem scanned_start (t : HeapTable) (n : Nat) : Scanned t n 0 0 (-1) :=
  ⟨fun s hn hs => by omega, .inl ⟨rfl, rfl, .inl rfl⟩⟩

/-- A taken entry ends whatever run was open. -/
theorem Scanned.taken {t : HeapTable} {n i bc : Nat} {bs : Int} (h : Scanned t n i bc bs)
    (hi : ¬ t.Free i) : Scanned t n (i + 1) 0 (-1) := by
  refine ⟨fun s hn hs hfree => ?_, .inl ⟨rfl, rfl, .inr (by simpa using hi)⟩⟩
  by_cases hlast : s + n = i + 1
  · exact hi (hfree i (by omega) (by omega))
  · exact h.none s hn (by omega) hfree

theorem s32_ne_neg_one {n : Nat} (h : n < 2 ^ 32 - 1) : s32 n ≠ -1 := by
  have hu : u32 n = n := u32_of_lt (by omega)
  unfold s32
  rw [hu]
  split <;> omega

/-- A free entry extends the open run or opens one; `b` is where it starts. -/
theorem Scanned.extend {t : HeapTable} {n i bc : Nat} {bs : Int} (h : Scanned t n i bc bs)
    (hi : t.Free i) (hlt : i < 2 ^ 32 - 1) :
    ∃ b, (if bs = -1 then s32 i else bs) = s32 b ∧ b + (bc + 1) = i + 1 ∧
      (∀ j, b ≤ j → j < i + 1 → t.Free j) ∧ (b = 0 ∨ ¬ t.Free (b - 1)) := by
  have hfree : ∀ b, (∀ j, b ≤ j → j < i → t.Free j) → ∀ j, b ≤ j → j < i + 1 → t.Free j := by
    intro b hb j hbj hj
    by_cases hji : j = i
    · exact hji ▸ hi
    · exact hb j hbj (by omega)
  rcases h.cursor with ⟨rfl, rfl, hprev⟩ | ⟨b, rfl, hbc, hpos, hb, hprev⟩
  · exact ⟨i, rfl, by omega, hfree i (fun j h1 h2 => by omega), hprev⟩
  · exact ⟨b, if_neg (s32_ne_neg_one (by omega)), by omega, hfree b hb, hprev⟩

theorem heapGetStartBlockFrom_taken (t : HeapTable) (n fuel : Nat) {i bc : Nat} {bs : Int}
    (hi : ¬ t.Free i) :
    heapGetStartBlockFrom t n (fuel + 1) i bc bs = heapGetStartBlockFrom t n fuel (i + 1) 0 (-1) :=
  if_pos hi

theorem heapGetStartBlockFrom_free (t : HeapTable) (n fuel : Nat) {i bc : Nat} {bs bs' : Int}
    (hi : t.Free i) (hbs : (if bs = -1 then s32 i else bs) = bs') :
    heapGetStartBlockFrom t n (fuel + 1) i bc bs =
      if bc + 1 = n then (if bs' = -1 then -enomem else bs')
      else heapGetStartBlockFrom t n fuel (i + 1) (bc + 1) bs' := by
  subst hbs
  exact if_neg (not_not.mpr hi)

/-- The scan from any index to its end. -/
theorem heapGetStartBlockFrom_spec (t : HeapTable) (n : Nat) (htotal : t.totalEntries < 2 ^ 32)
    (fuel i bc : Nat) (bs : Int) (hfuel : i + fuel = t.totalEntries) (h : Scanned t n i bc bs)
    (hshort : bc < n ∨ n = 0) : StartBlock t n (heapGetStartBlockFrom t n fuel i bc bs) := by
  induction fuel generalizing i bc bs with
  | zero =>
    -- the table is exhausted: no run of `n` was met, and `bs` is where the last entries start
    have hnone : n = 0 ∨ ∀ s, ¬ t.RunFree s n := by
      by_cases hn : n = 0
      · exact .inl hn
      · exact .inr fun s hs => h.none s (by omega) (by have := hs.1; omega) hs.2
    unfold heapGetStartBlockFrom
    rcases h.cursor with ⟨rfl, rfl, hlast⟩ | ⟨b, rfl, hbc, hpos, hb, hprev⟩
    · rw [if_pos rfl]
      exact .none hnone (by simpa [← hfuel] using hlast)
    · rw [if_neg (s32_ne_neg_one (by omega))]
      exact .short hnone ⟨by omega, fun j h1 h2 => hb j h1 (by omega), hprev⟩
  | succ fuel ih =>
    by_cases hi : t.Free i
    · obtain ⟨b, hbs, hbc, hb, hprev⟩ := h.extend hi (by omega)
      rw [heapGetStartBlockFrom_free t n fuel hi hbs]
      by_cases hstop : bc + 1 = n
      · rw [if_pos hstop, if_neg (s32_ne_neg_one (by omega))]
        refine .found (by omega) ⟨by omega, fun j h1 h2 => hb j h1 (by omega)⟩ fun r hr hrun => ?_
        exact h.none r (by omega) (by omega) hrun.2
      · rw [if_neg hstop]
        refine ih (i + 1) (bc + 1) (s32 b) (by omega) ⟨fun s hn hs hfree => ?_, ?_⟩ (by omega)
        · -- a run of `n` ending at `i` would have started at `b` or later
          by_cases hlast : s + n = i + 1
          · have hsb : s < b := by omega
            rcases hprev with rfl | hprev
            · omega
            · exact hprev (hfree (b - 1) (by omega) (by omega))
          · exact h.none s hn (by omega) hfree
        · exact .inr ⟨b, rfl, hbc, by omega, hb, hprev⟩
    · rw [heapGetStartBlockFrom_taken t n fuel hi]
      exact ih (i + 1) 0 (-1) (by omega) (h.taken hi) (by omega)

/-- **What `heap_get_start_block` returns**, for every table and every request. -/
theorem heapGetStartBlock_spec (heap : Heap) (n : Nat) (htotal : heap.table.totalEntries < 2 ^ 32) :
    StartBlock heap.table n (heapGetStartBlock heap n) :=
  heapGetStartBlockFrom_spec heap.table n htotal _ 0 0 (-1) (by omega) (scanned_start _ n) (by omega)

/-- With room for the request the scan returns its first fit. -/
theorem heapGetStartBlock_found (heap : Heap) {n : Nat} (htotal : heap.table.totalEntries < 2 ^ 32)
    (hn : 1 ≤ n) (hroom : ∃ s, heap.table.RunFree s n) :
    ∃ s, heapGetStartBlock heap n = s32 s ∧ heap.table.RunFree s n ∧ heap.table.NoRunBefore n s := by
  obtain ⟨r, hr⟩ := hroom
  generalize hres : heapGetStartBlock heap n = res
  have h := heapGetStartBlock_spec heap n htotal
  rw [hres] at h
  cases h with
  | found _ hrun hfirst => exact ⟨_, rfl, hrun, hfirst⟩
  | short hnone _ => exact absurd hr ((hnone.resolve_left (by omega)) r)
  | none hnone _ => exact absurd hr ((hnone.resolve_left (by omega)) r)

/-- Two first fits are the same. -/
theorem runFree_unique {t : HeapTable} {n s r : Nat} (hs : t.RunFree s n) (hsf : t.NoRunBefore n s)
    (hr : t.RunFree r n) (hrf : t.NoRunBefore n r) : s = r := by
  rcases Nat.lt_trichotomy s r with h | h | h
  · exact absurd hs (hrf s h)
  · exact h
  · exact absurd hr (hsf r h)

/-! ### First fit -/

/-- The blocks are addresses, and the first megabyte is not among them. -/
structure Heap.Placed (heap : Heap) : Prop where
  above : 0x100000 ≤ heap.baseAddr
  below : heap.baseAddr + heap.table.totalEntries * heapBlockSize ≤ 2 ^ 32

/-- The search for `n` blocks finds the least run that fits and fails when there is none;
`heap_alloc` then returns a null pointer and leaves the table alone. -/
structure FirstFit (heap : Heap) (n : Nat) : Prop where
  least : ∀ s, heap.table.RunFree s n → heap.table.NoRunBefore n s → heapGetStartBlock heap n = s
  fails : heapGetStartBlock heap n < 0 ↔ ¬ ∃ s, heap.table.RunFree s n
  null : (heapAllocBlocks heap n).1 = 0 ↔ ¬ ∃ s, heap.table.RunFree s n
  unchanged : (¬ ∃ s, heap.table.RunFree s n) → (heapAllocBlocks heap n).2 = heap
  sized : ∀ size, heapAlignSize size / heapBlockSize = n → heapAlloc heap size = heapAllocBlocks heap n

theorem Heap.Placed.total_lt {heap : Heap} (h : heap.Placed) : heap.table.totalEntries < 2 ^ 20 := by
  have := h.above
  have := h.below
  simp only [heapBlockSize] at this
  omega

/-- `start_block < 0` never holds: the address is that of the block the search named. -/
theorem heapAllocBlocks_address (heap : Heap) (n : Nat) :
    (heapAllocBlocks heap n).1 = heapBlockToAddress heap (u32OfInt (heapGetStartBlock heap n)) := by
  unfold heapAllocBlocks
  rw [if_neg (Nat.not_lt_zero _)]

theorem heapBlockToAddress_ne_zero {heap : Heap} (h : heap.Placed) {b : Nat}
    (hb : b < heap.table.totalEntries) : heapBlockToAddress heap b ≠ 0 := by
  have habove := h.above
  have hbelow := h.below
  simp only [heapBlockToAddress, heapBlockSize] at hbelow ⊢
  rw [u32_of_lt (by omega)]
  omega

/-- **No allocation fails.** With no block found the address is still not null. -/
theorem heapAllocBlocks_ne_null {heap : Heap} (h : heap.Placed) {n : Nat} (hn : 1 ≤ n) :
    (heapAllocBlocks heap n).1 ≠ 0 := by
  have htotal := h.total_lt
  have hstart := heapGetStartBlock_spec heap n (by omega)
  rw [heapAllocBlocks_address]
  generalize heapGetStartBlock heap n = res at hstart
  cases hstart with
  | found _ hrun _ =>
    have hin := hrun.1
    rw [u32OfInt_s32, u32_of_lt (by omega)]
    exact heapBlockToAddress_ne_zero h (by omega)
  | short _ htrailing =>
    have hin := htrailing.lt
    rw [u32OfInt_s32, u32_of_lt (by omega)]
    exact heapBlockToAddress_ne_zero h hin
  | none _ _ =>
    -- `-ENOMEM` becomes a block number whose address is just below the heap's first
    have habove := h.above
    have hbelow := h.below
    have hcode : u32OfInt (-enomem) = 2 ^ 32 - 3 := by decide
    rw [hcode]
    simp only [heapBlockToAddress, heapBlockSize, u32]
    omega

/-- **First fit.** The search and `heap_alloc` do what they are for exactly when some run of
free blocks fits. -/
theorem firstFit_iff (heap : Heap) (h : heap.Placed) (n : Nat) (hn : 1 ≤ n) :
    FirstFit heap n ↔ ∃ s, heap.table.RunFree s n := by
  constructor
  · intro hfit
    by_contra hnone
    exact heapAllocBlocks_ne_null h hn (hfit.null.mpr hnone)
  · intro hroom
    obtain ⟨s, hres, hrun, hfirst⟩ := heapGetStartBlock_found heap (by have := h.total_lt; omega) hn hroom
    have hlt : s < 2 ^ 31 := by
      have := hrun.1
      have := h.total_lt
      omega
    rw [s32_of_lt hlt] at hres
    refine ⟨fun r hr hrfirst => ?_, ?_, ?_, fun hnone => absurd hroom hnone, fun size hsize => ?_⟩
    · rw [hres, runFree_unique hrun hfirst hr hrfirst]
    · rw [hres]
      exact ⟨fun hneg => absurd hneg (by omega), fun hnone => absurd hroom hnone⟩
    · exact ⟨fun hnull => absurd hnull (heapAllocBlocks_ne_null h hn), fun hnone => absurd hroom hnone⟩
    · rw [← hsize]
      rfl

/-- One free block, in the heap's first: found at 0. -/
theorem firstFit_one_block :
    FirstFit ⟨⟨fun _ => 0, 1, []⟩, 0x1000000⟩ 1 :=
  (firstFit_iff _ ⟨by decide, by decide⟩ 1 (by decide)).mpr ⟨0, by decide, fun _ _ _ => (rfl : heapGetEntryType 0 = 0)⟩

/-- **Not first fit.** Two blocks of a heap with one are not refused. -/
theorem firstFit_fails_when_short :
    ¬ FirstFit ⟨⟨fun _ => 0, 1, []⟩, 0x1000000⟩ 2 := by
  intro h
  have hnone : ¬ ∃ s, HeapTable.RunFree ⟨fun _ => 0, 1, []⟩ s 2 := by
    rintro ⟨s, hs⟩
    have hin : s + 2 ≤ 1 := hs.1
    omega
  exact absurd (h.fails.mpr hnone) (by decide)

end BasicOS

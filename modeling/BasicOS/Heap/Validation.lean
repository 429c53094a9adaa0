import BasicOS.Heap.Safety

/-! What `make_heap` accepts.

The table is checked by a function that returns an `unsigned char`: its error comes back as
254, which is not below zero, and the heap is made over a table of the wrong size. What should
hold of a call, `ValidatesFirst`, holds exactly of those with an address that is no block's, which
are turned away before, and those with a table of the right size (`makeHeap_validates_iff`). -/
namespace BasicOS

/-- `ptr` and `end` are block addresses, with an entry in the table for every block between them. -/
def HeapFits (ptr endAddr : Nat) (table : HeapTable) : Prop :=
  ptr % heapBlockSize = 0 ∧ endAddr % heapBlockSize = 0 ∧
    table.totalEntries = u32 (endAddr + 2 ^ 32 - ptr) / heapBlockSize

/-- `*table` after `make_heap`. -/
def makeHeapTable (ptr endAddr : Nat) (table : HeapTable) : HeapTable :=
  if !heapValidateAlignment ptr || !heapValidateAlignment endAddr then table
  else
    let res : Int := heapValidateTable ptr endAddr table
    if res < 0 then table else table.clear table.totalEntries

/-- Nothing is made before it is validated: the heap is accepted just when it fits, and then
begins at `ptr`, over the table, with every entry free; otherwise nothing has changed. -/
structure ValidatesFirst (heap : Heap) (mem : Nat → Nat) (ptr endAddr : Nat) (table : HeapTable) : Prop where
  accepts : 0 ≤ (makeHeap heap mem ptr endAddr table).res ↔ HeapFits ptr endAddr table
  made : 0 ≤ (makeHeap heap mem ptr endAddr table).res →
    (makeHeap heap mem ptr endAddr table).heap = ⟨makeHeapTable ptr endAddr table, ptr⟩ ∧
      (makeHeapTable ptr endAddr table).totalEntries = table.totalEntries ∧
      ∀ i : Nat, i < table.totalEntries → (makeHeapTable ptr endAddr table).entries i = heapBlockTableEntryFree
  untouched : (makeHeap heap mem ptr endAddr table).res < 0 → makeHeapTable ptr endAddr table = table ∧
    (makeHeap heap mem ptr endAddr table).mem = mem

variable (heap : Heap) (mem : Nat → Nat) (table : HeapTable) {ptr endAddr : Nat}

theorem heapValidateAlignment_iff {ptr : Nat} : heapValidateAlignment ptr = true ↔ ptr % heapBlockSize = 0 := by
  unfold heapValidateAlignment
  exact beq_iff_eq

/-- An address that is no block's is turned away, and nothing has changed. -/
theorem makeHeap_misaligned (h : ptr % heapBlockSize ≠ 0 ∨ endAddr % heapBlockSize ≠ 0) :
    makeHeap heap mem ptr endAddr table = ⟨-einvarg, heap, mem⟩ ∧ makeHeapTable ptr endAddr table = table := by
  have hguard : (!heapValidateAlignment ptr || !heapValidateAlignment endAddr) = true := by
    rw [Bool.or_eq_true, Bool.not_eq_true', Bool.not_eq_true', ← Bool.not_eq_true, ← Bool.not_eq_true,
      heapValidateAlignment_iff, heapValidateAlignment_iff]
    exact h
  unfold makeHeap makeHeapTable
  rw [if_pos hguard, if_pos hguard]
  exact ⟨rfl, rfl⟩

/-- Between block addresses the heap is made, with the verdict on the table as the result. -/
theorem makeHeap_aligned (hptr : ptr % heapBlockSize = 0) (hend : endAddr % heapBlockSize = 0) :
    (makeHeap heap mem ptr endAddr table).res = heapValidateTable ptr endAddr table ∧
      (makeHeap heap mem ptr endAddr table).heap = ⟨makeHeapTable ptr endAddr table, ptr⟩ ∧
      makeHeapTable ptr endAddr table = table.clear table.totalEntries := by
  have hguard : ¬ (!heapValidateAlignment ptr || !heapValidateAlignment endAddr) = true := by
    rw [heapValidateAlignment_iff.mpr hptr, heapValidateAlignment_iff.mpr hend]
    decide
  -- an `unsigned char` is never below zero
  have hsign : ¬ ((heapValidateTable ptr endAddr table : Int) < 0) := Int.not_lt.mpr (Int.natCast_nonneg _)
  unfold makeHeap makeHeapTable
  rw [if_neg hguard, if_neg hguard]
  simp only [if_neg hsign]
  exact ⟨trivial, trivial, trivial⟩

/-- **`make_heap` validates before it initialises exactly when** one of the addresses is no
block's, or the table has an entry for every block. -/
theorem makeHeap_validates_iff (heap : Heap) (mem : Nat → Nat) (ptr endAddr : Nat) (table : HeapTable) :
    ValidatesFirst heap mem ptr endAddr table ↔ ptr % heapBlockSize ≠ 0 ∨ endAddr % heapBlockSize ≠ 0 ∨
      table.totalEntries = u32 (endAddr + 2 ^ 32 - ptr) / heapBlockSize := by
  by_cases halign : ptr % heapBlockSize = 0 ∧ endAddr % heapBlockSize = 0
  · obtain ⟨hptr, hend⟩ := halign
    rw [or_iff_right (not_not_intro hptr), or_iff_right (not_not_intro hend)]
    obtain ⟨hres, hheap, htable⟩ := makeHeap_aligned heap mem table hptr hend
    have hnonneg : 0 ≤ (makeHeap heap mem ptr endAddr table).res := by
      rw [hres]
      exact Int.natCast_nonneg _
    constructor
    · exact fun h => (h.accepts.mp hnonneg).2.2
    · intro htotal
      obtain ⟨hsame, hentries, _⟩ := clear_spec table table.totalEntries
      refine ⟨iff_of_true hnonneg ⟨hptr, hend, htotal⟩, fun _ => ⟨hheap, ?_, fun i hi => ?_⟩, fun hneg => ?_⟩
      · rw [htable, hsame]
      · rw [htable, hentries]
        exact if_pos ⟨Int.natCast_nonneg i, Int.ofNat_lt.mpr hi⟩
      · exact absurd hneg (Int.not_lt.mpr hnonneg)
  · have hmis : ptr % heapBlockSize ≠ 0 ∨ endAddr % heapBlockSize ≠ 0 := not_and_or.mp halign
    obtain ⟨hmade, htable⟩ := makeHeap_misaligned heap mem table hmis
    have hinvarg : ¬ 0 ≤ -einvarg := by decide
    refine iff_of_true ⟨?_, fun hres => ?_, fun _ => ⟨htable, by rw [hmade]⟩⟩ (hmis.elim .inl fun h => .inr (.inl h))
    · rw [hmade]
      exact iff_of_false hinvarg fun hfits => halign ⟨hfits.1, hfits.2.1⟩
    · rw [hmade] at hres
      exact absurd hres hinvarg

/-- **A table of two entries is accepted for a heap of one block.** -/
theorem makeHeap_accepts_mismatch : ¬ ∀ (heap : Heap) (mem : Nat → Nat) (ptr endAddr : Nat) (table : HeapTable),
    ValidatesFirst heap mem ptr endAddr table := by
  intro h
  have hfits := (h ⟨⟨fun _ => 1, 0, []⟩, 0⟩ (fun _ => 7) 0x1000000 0x1001000 ⟨fun _ => 1, 2, []⟩).accepts.mp (by decide)
  exact absurd hfits.2.2 (by decide)

end BasicOS

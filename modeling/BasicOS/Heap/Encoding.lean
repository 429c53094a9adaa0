import BasicOS.Heap.FirstFit
import BasicOS.Lib.Extent

/-! The entry table as the encoding of the allocated extents.

`mark e i` is the byte `heap.c` keeps for block `i` of the extent `e`: `TAKEN` on
every block, `FIRST` on the first, `EXTENDS` on all but the last. `Encodes t xs`
says the whole table is what the extents `xs` put there and free elsewhere. The
two marking loops move between such tables: taking a free run adds its extent
(`Encodes.take`), and the release loop, which reads no length, clears exactly the
extent it starts in (`Encodes.release`). -/
namespace BasicOS
open Lib HeapTable

/-- The entry of block `i` of the allocation `e`. -/
def mark (e : Extent) (i : Nat) : Nat :=
  (heapBlockTableEntryTaken ||| if i = e.start then heapMasksAllocationIsFirstEntry else 0) |||
    if i + 1 < e.start + e.len then heapMasksAllocationExtendsNextBlock else 0

/-- The entry of block `i` when the allocations are `xs`. -/
def encoding (xs : List Extent) (i : Nat) : Nat :=
  match holder xs i with
  | some e => mark e i
  | none => heapBlockTableEntryFree

theorem mark_taken (e : Extent) (i : Nat) : heapGetEntryType (mark e i) ≠ heapBlockTableEntryFree := by
  unfold mark
  split <;> split <;> decide

theorem mark_extends (e : Extent) (i : Nat) :
    mark e i &&& heapMasksAllocationExtendsNextBlock = 0 ↔ ¬ i + 1 < e.start + e.len := by
  unfold mark
  by_cases h : i + 1 < e.start + e.len
  · simp only [h, if_true, not_true_eq_false, iff_false]
    split <;> decide
  · simp only [h, if_false, not_false_eq_true, iff_true]
    split <;> decide

theorem encoding_free {xs : List Extent} {i : Nat} :
    heapGetEntryType (encoding xs i) = heapBlockTableEntryFree ↔ ∀ e ∈ xs, ¬ e.Holds i := by
  rw [← holder_eq_none]
  unfold encoding
  cases h : holder xs i with
  | none => simp [heapGetEntryType]
  | some e => simpa using mark_taken e i

theorem encoding_holds {xs : List Extent} (hp : xs.Pairwise Extent.Apart) {e : Extent} {i : Nat}
    (he : e ∈ xs) (hi : e.Holds i) : encoding xs i = mark e i := by
  simp [encoding, holder_eq_some hp he hi]

theorem encoding_cons_of_not {e : Extent} (xs : List Extent) {i : Nat} (hi : ¬ e.Holds i) :
    encoding (e :: xs) i = encoding xs i := by
  simp [encoding, holder_cons, hi]

/-! ### The marking loop -/

@[simp] theorem store_totalEntries (t : HeapTable) (i : Int) (v : Nat) :
    (t.store i v).totalEntries = t.totalEntries := rfl

@[simp] theorem store_written (t : HeapTable) (i : Int) (v : Nat) :
    (t.store i v).written = i :: t.written := rfl

theorem store_entries (t : HeapTable) (i j : Int) (v : Nat) :
    (t.store i v).entries j = if j = i then v else t.entries j := rfl

/-- The table after the blocks of `e` from the `k`-th on have been given their marks. -/
structure Marked (t u : HeapTable) (e : Extent) (k : Nat) : Prop where
  total : u.totalEntries = t.totalEntries
  inside : ∀ i : Nat, e.start + k ≤ i → i < e.start + e.len → u.entries i = mark e i
  outside : ∀ j : Int, j < (e.start + k : Nat) ∨ (e.start + e.len : Nat) ≤ j → u.entries j = t.entries j
  written : ∀ j ∈ u.written, j ∈ t.written ∨ (e.start : Int) ≤ j ∧ j < (e.start + e.len : Nat)

/-- From its `k`-th block on, the loop writes every mark of the extent and nothing else. -/
theorem heapMarkTakenFrom_spec (e : Extent) (fuel k : Nat) (t : HeapTable) (hk : k + fuel = e.len) :
    Marked t (heapMarkTakenFrom ((e.start : Int) + e.len - 1) fuel ((e.start + k : Nat) : Int)
      (mark e (e.start + k)) t) e k := by
  induction fuel generalizing k t with
  | zero =>
    exact ⟨rfl, fun i h1 h2 => by omega, fun j _ => rfl, fun j hj => .inl hj⟩
  | succ fuel ih =>
    unfold heapMarkTakenFrom
    rw [if_pos (by omega)]
    -- the byte carried to the next block is that block's mark, while there is one
    have hnext : fuel ≠ 0 → (if ((e.start + k : Nat) : Int) ≠ (e.start : Int) + e.len - 1 - 1 then
        heapBlockTableEntryTaken ||| heapMasksAllocationExtendsNextBlock
        else heapBlockTableEntryTaken) = mark e (e.start + (k + 1)) := by
      intro hf
      have hfirst : e.start + (k + 1) ≠ e.start := by omega
      by_cases hlast : e.start + (k + 1) + 1 < e.start + e.len
      · rw [if_pos (by omega)]
        simp only [mark, if_neg hfirst, if_pos hlast]
        decide
      · rw [if_neg (by omega)]
        simp only [mark, if_neg hfirst, if_neg hlast]
        decide
    by_cases hf : fuel = 0
    · subst hf
      refine ⟨rfl, fun i h1 h2 => ?_, fun j hj => ?_, fun j hj => ?_⟩
      · have hi : i = e.start + k := by omega
        subst hi
        simp [heapMarkTakenFrom, store_entries]
      · simp only [heapMarkTakenFrom, store_entries]
        rw [if_neg (by omega)]
      · simp only [heapMarkTakenFrom, store_written, List.mem_cons] at hj
        rcases hj with rfl | hj
        · exact .inr ⟨by omega, by omega⟩
        · exact .inl hj
    · rw [hnext hf]
      have hcast : ((e.start + k : Nat) : Int) + 1 = ((e.start + (k + 1) : Nat) : Int) := by push_cast; omega
      rw [hcast]
      have h := ih (k + 1) (t.store ((e.start + k : Nat) : Int) (mark e (e.start + k))) (by omega)
      refine ⟨h.total, fun i h1 h2 => ?_, fun j hj => ?_, fun j hj => ?_⟩
      · by_cases hi : i = e.start + k
        · subst hi
          rw [h.outside _ (.inl (by omega)), store_entries, if_pos rfl]
        · exact h.inside i (by omega) h2
      · rw [h.outside j (by omega), store_entries, if_neg (by omega)]
      · rcases h.written j hj with hw | hw
        · rw [store_written, List.mem_cons] at hw
          rcases hw with rfl | hw
          · exact .inr ⟨by omega, by omega⟩
          · exact .inl hw
        · exact .inr hw

/-- `heap_mark_blocks_as_taken` on a run of at least one block. -/
theorem heapMarkBlocksAsTaken_spec (heap : Heap) (e : Extent) (hlen : 1 ≤ e.len) :
    Marked heap.table (heapMarkBlocksAsTaken heap e.start e.len).table e 0 := by
  have hfirst : (if (e.len : Int) > 1 then
        heapBlockTableEntryTaken ||| heapMasksAllocationIsFirstEntry ||| heapMasksAllocationExtendsNextBlock
        else heapBlockTableEntryTaken ||| heapMasksAllocationIsFirstEntry) = mark e (e.start + 0) := by
    by_cases h : 1 < e.len
    · rw [if_pos (by omega)]
      simp [mark, show e.start + 1 < e.start + e.len by omega]
    · rw [if_neg (by omega)]
      simp [mark, show ¬ e.start + 1 < e.start + e.len by omega]
  have h := heapMarkTakenFrom_spec e e.len 0 heap.table (by omega)
  unfold heapMarkBlocksAsTaken
  simp only [hfirst, Int.toNat_natCast]
  simpa using h

/-! ### The release loop -/

/-- The table after the blocks of `e` from the `k`-th on have been cleared. -/
structure Released (t u : HeapTable) (e : Extent) (k : Nat) : Prop where
  total : u.totalEntries = t.totalEntries
  inside : ∀ i : Nat, e.start + k ≤ i → i < e.start + e.len → u.entries i = heapBlockTableEntryFree
  outside : ∀ j : Int, j < (e.start + k : Nat) ∨ (e.start + e.len : Nat) ≤ j → u.entries j = t.entries j
  written : ∀ j ∈ u.written, j ∈ t.written ∨ (e.start : Int) ≤ j ∧ j < (e.start + e.len : Nat)

/-- The loop follows the `EXTENDS` marks of the extent it is in and stops at the
block that has none. -/
theorem heapMarkFreeFrom_spec (e : Extent) (fuel k : Nat) (t : HeapTable) (hk : k < e.len)
    (hfuel : e.len - k ≤ fuel)
    (hmarks : ∀ i, e.start + k ≤ i → i < e.start + e.len → t.entries i = mark e i) :
    Released t (heapMarkFreeFrom fuel (e.start + k) t) e k := by
  induction fuel generalizing k t with
  | zero => omega
  | succ fuel ih =>
    unfold heapMarkFreeFrom
    rw [hmarks (e.start + k) (by omega) (by omega)]
    by_cases hlast : e.start + k + 1 < e.start + e.len
    · rw [if_neg (by rw [mark_extends]; exact not_not.mpr hlast),
        show e.start + k + 1 = e.start + (k + 1) from rfl]
      have h := ih (k + 1) (t.store ((e.start + k : Nat) : Int) heapBlockTableEntryFree) (by omega) (by omega)
        (fun i h1 h2 => by rw [store_entries, if_neg (by omega)]; exact hmarks i (by omega) h2)
      refine ⟨h.total, fun i h1 h2 => ?_, fun j hj => ?_, fun j hj => ?_⟩
      · by_cases hi : i = e.start + k
        · subst hi
          rw [h.outside _ (.inl (by omega)), store_entries, if_pos rfl]
        · exact h.inside i (by omega) h2
      · rw [h.outside j (by omega), store_entries, if_neg (by omega)]
      · rcases h.written j hj with hw | hw
        · rw [store_written, List.mem_cons] at hw
          rcases hw with rfl | hw
          · exact .inr ⟨by omega, by omega⟩
          · exact .inl hw
        · exact .inr hw
    · rw [if_pos (by rw [mark_extends]; exact hlast)]
      refine ⟨rfl, fun i h1 h2 => ?_, fun j hj => ?_, fun j hj => ?_⟩
      · have hi : i = e.start + k := by omega
        subst hi
        rw [store_entries, if_pos rfl]
      · rw [store_entries, if_neg (by omega)]
      · rw [store_written, List.mem_cons] at hj
        rcases hj with rfl | hj
        · exact .inr ⟨by omega, by omega⟩
        · exact .inl hj

/-- `heap_mark_blocks_as_free` at the first block of a marked extent inside the table. -/
theorem heapMarkBlocksAsFree_spec (heap : Heap) (e : Extent) (hlen : 1 ≤ e.len)
    (hin : e.start + e.len ≤ heap.table.totalEntries)
    (hmarks : ∀ i, e.Holds i → heap.table.entries i = mark e i) :
    Released heap.table (heapMarkBlocksAsFree heap e.start).table e 0 :=
  heapMarkFreeFrom_spec e _ 0 heap.table (by omega) (by omega) fun i h1 h2 => hmarks i ⟨by omega, h2⟩

/-- Starting in a free block the loop clears that block again and stops; starting
past the table it does nothing. -/
theorem heapMarkBlocksAsFree_free (heap : Heap) (b : Nat)
    (hfree : b < heap.table.totalEntries → heap.table.entries b = heapBlockTableEntryFree) :
    (heapMarkBlocksAsFree heap b).table.totalEntries = heap.table.totalEntries ∧
      (heapMarkBlocksAsFree heap b).table.entries = heap.table.entries ∧
      ∀ j ∈ (heapMarkBlocksAsFree heap b).table.written,
        j ∈ heap.table.written ∨ 0 ≤ j ∧ j < heap.table.totalEntries := by
  by_cases hb : b < heap.table.totalEntries
  · obtain ⟨fuel, hfuel⟩ : ∃ fuel, heap.table.totalEntries - b = fuel + 1 :=
      ⟨heap.table.totalEntries - b - 1, by omega⟩
    simp only [heapMarkBlocksAsFree, hfuel, heapMarkFreeFrom, hfree hb]
    refine ⟨rfl, ?_, fun j hj => ?_⟩
    · funext j
      simp only [Nat.zero_and, if_true, store_entries]
      split
      · subst_vars
        exact (hfree hb).symm
      · rfl
    · simp only [Nat.zero_and, if_true, store_written, List.mem_cons] at hj
      rcases hj with rfl | hj
      · exact .inr ⟨by omega, by omega⟩
      · exact .inl hj
  · have hfuel : heap.table.totalEntries - b = 0 := by omega
    simp only [heapMarkBlocksAsFree, hfuel, heapMarkFreeFrom]
    exact ⟨trivial, trivial, fun j hj => .inl hj⟩

/-! ### The table of a set of allocations -/

/-- Every entry of the table is what the allocations `xs` put there. -/
def Encodes (t : HeapTable) (xs : List Extent) : Prop :=
  ∀ i : Nat, i < t.totalEntries → t.entries i = encoding xs i

theorem Encodes.free_iff {t : HeapTable} {xs : List Extent} (h : Encodes t xs) {i : Nat}
    (hi : i < t.totalEntries) : t.Free i ↔ ∀ e ∈ xs, ¬ e.Holds i := by
  unfold HeapTable.Free
  rw [h i hi, encoding_free]

/-- A run of free entries is apart from every allocation. -/
theorem Encodes.runFree_apart {t : HeapTable} {xs : List Extent} (h : Encodes t xs) {s n : Nat}
    (hrun : t.RunFree s n) : ∀ e ∈ xs, Extent.Apart ⟨s, n⟩ e := by
  intro e he i hi
  exact (h.free_iff (by have := hrun.1; unfold Extent.Holds at hi; simp only at hi; omega)).mp
    (hrun.2 i hi.1 hi.2) e he

/-- Marking a free run adds its extent to the encoding. -/
theorem Encodes.take {t u : HeapTable} {xs : List Extent} (h : Encodes t xs) {e : Extent}
    (hm : Marked t u e 0) : Encodes u (e :: xs) := by
  intro i hi
  by_cases he : e.Holds i
  · rw [hm.inside i he.1 he.2]
    simp [encoding, holder_cons, he]
  · rw [encoding_cons_of_not xs he, hm.outside i (by unfold Extent.Holds at he; omega)]
    exact h i (hm.total ▸ hi)

/-- Clearing an extent removes exactly it from the encoding: `q` keeps the other
allocations, whose marks stay. -/
theorem Encodes.release {t u : HeapTable} {xs : List Extent} (h : Encodes t xs) {e : Extent}
    (hr : Released t u e 0) (hp : xs.Pairwise Extent.Apart) (he : e ∈ xs) (q : Extent → Bool)
    (hq : ∀ f ∈ xs, q f = false → f = e ∨ f.len = 0) (hqe : q e = false) :
    Encodes u (xs.filter q) := by
  intro i hi
  have hti : i < t.totalEntries := hr.total ▸ hi
  by_cases hei : e.Holds i
  · -- the only holder of `i` has been dropped
    rw [hr.inside i hei.1 hei.2]
    have hnone : holder (xs.filter q) i = none := by
      rw [holder_eq_none]
      intro f hf hfi
      obtain ⟨hfx, hqf⟩ := List.mem_filter.mp hf
      have hsome := (holder_eq_some hp hfx hfi).symm.trans (holder_eq_some hp he hei)
      rw [Option.some.injEq] at hsome
      rw [hsome, hqe] at hqf
      cases hqf
    simp [encoding, hnone]
  · rw [hr.outside i (by unfold Extent.Holds at hei; omega), h i hti]
    unfold encoding
    rw [holder_filter q]
    intro f hf hfi
    cases hqf : q f
    · rcases hq f hf hqf with rfl | hlen
      · exact absurd hfi hei
      · unfold Extent.Holds at hfi
        omega
    · rfl

/-- Dropping empty extents leaves the encoding. -/
theorem Encodes.drop_empty {t : HeapTable} {xs : List Extent} (h : Encodes t xs) (q : Extent → Bool)
    (hq : ∀ f ∈ xs, q f = false → f.len = 0) : Encodes t (xs.filter q) := by
  intro i hi
  rw [h i hi]
  unfold encoding
  rw [holder_filter q]
  intro f hf hfi
  cases hqf : q f
  · have := hq f hf hqf
    unfold Extent.Holds at hfi
    omega
  · rfl

/-! ### A heap and the allocations it holds -/

/-- The heap holds exactly the allocations `xs`: they lie in the table and do not
meet, the table encodes them, and every store so far went to an entry of the table. -/
structure HeapReps (heap : Heap) (xs : List Extent) : Prop where
  total : heap.table.totalEntries < 2 ^ 32
  inside : ∀ e ∈ xs, e.start + e.len ≤ heap.table.totalEntries
  apart : xs.Pairwise Extent.Apart
  encodes : Encodes heap.table xs
  written : ∀ j ∈ heap.table.written, 0 ≤ j ∧ j < heap.table.totalEntries

@[simp] theorem heapMarkBlocksAsTaken_baseAddr (heap : Heap) (s n : Int) :
    (heapMarkBlocksAsTaken heap s n).baseAddr = heap.baseAddr := rfl

@[simp] theorem heapMarkBlocksAsFree_baseAddr (heap : Heap) (b : Nat) :
    (heapMarkBlocksAsFree heap b).baseAddr = heap.baseAddr := rfl

/-- Marking a run of free entries adds it to the allocations. -/
theorem HeapReps.take {heap : Heap} {xs : List Extent} (h : HeapReps heap xs) {r n : Nat} (hn : 1 ≤ n)
    (hrun : heap.table.RunFree r n) : HeapReps (heapMarkBlocksAsTaken heap r n) (⟨r, n⟩ :: xs) := by
  have hm := heapMarkBlocksAsTaken_spec heap ⟨r, n⟩ hn
  refine ⟨hm.total ▸ h.total, fun e he => ?_, ?_, h.encodes.take hm, fun j hj => ?_⟩
  · rw [hm.total]
    rcases List.mem_cons.mp he with rfl | he
    · exact hrun.1
    · exact h.inside e he
  · exact List.pairwise_cons.mpr ⟨h.encodes.runFree_apart hrun, h.apart⟩
  · rw [hm.total]
    rcases hm.written j hj with hw | hw
    · exact h.written j hw
    · have := hrun.1
      simp only at hw
      omega

/-- Adding an extent without blocks changes nothing in the table. -/
theorem HeapReps.take_empty {heap : Heap} {xs : List Extent} (h : HeapReps heap xs) {b : Nat}
    (hb : b ≤ heap.table.totalEntries) : HeapReps heap (⟨b, 0⟩ :: xs) := by
  refine ⟨h.total, fun e he => ?_, ?_, fun i hi => ?_, h.written⟩
  · rcases List.mem_cons.mp he with rfl | he
    · exact hb
    · exact h.inside e he
  · exact List.pairwise_cons.mpr ⟨fun e _ => Extent.apart_of_len_zero rfl, h.apart⟩
  · rw [encoding_cons_of_not _ (by unfold Extent.Holds; simp only; omega)]
    exact h.encodes i hi

/-- Two extents of the heap with the same first block are the same, unless one is empty. -/
theorem HeapReps.start_unique {heap : Heap} {xs : List Extent} (h : HeapReps heap xs) {e f : Extent}
    (he : e ∈ xs) (hf : f ∈ xs) (hstart : f.start = e.start) (hlen : 1 ≤ e.len) : f = e ∨ f.len = 0 := by
  by_cases hfl : f.len = 0
  · exact .inr hfl
  · have h1 := holder_eq_some h.apart he (i := e.start) ⟨Nat.le_refl _, by omega⟩
    have h2 := holder_eq_some h.apart hf (i := e.start) ⟨by omega, by omega⟩
    exact .inl (Option.some.inj (h2.symm.trans h1))

/-- The release loop, started at the first block of an allocation or in a free block,
removes the allocations that start there and leaves the others. -/
theorem HeapReps.release {heap : Heap} {xs : List Extent} (h : HeapReps heap xs) {b : Nat}
    (hb : (∃ e ∈ xs, e.start = b ∧ 1 ≤ e.len) ∨ heap.table.Free b) :
    HeapReps (heapMarkBlocksAsFree heap b) (xs.filter (·.start ≠ b)) := by
  by_cases hsome : ∃ e ∈ xs, e.start = b ∧ 1 ≤ e.len
  · obtain ⟨e, he, rfl, hlen⟩ := hsome
    have hr := heapMarkBlocksAsFree_spec heap e hlen (h.inside e he) fun i hi =>
      (h.encodes i (by have := h.inside e he; unfold Extent.Holds at hi; omega)).trans
        (encoding_holds h.apart he hi)
    refine ⟨hr.total ▸ h.total, fun f hf => ?_, h.apart.filter _, ?_, fun j hj => ?_⟩
    · rw [hr.total]
      exact h.inside f (List.mem_filter.mp hf).1
    · exact h.encodes.release hr h.apart he _
        (fun f hf hq => h.start_unique he hf (by simpa using hq) hlen) (by simp)
    · rw [hr.total]
      rcases hr.written j hj with hw | hw
      · exact h.written j hw
      · have := h.inside e he
        omega
  · -- whatever starts at `b` is empty, and the block is free
    have hfree := hb.resolve_left hsome
    have hentry : b < heap.table.totalEntries → heap.table.entries b = heapBlockTableEntryFree := by
      intro hbt
      rw [h.encodes b hbt]
      simp [encoding, holder_eq_none.mpr ((h.encodes.free_iff hbt).mp hfree)]
    obtain ⟨htotal, hentries, hwritten⟩ := heapMarkBlocksAsFree_free heap b hentry
    refine ⟨htotal ▸ h.total, fun f hf => ?_, h.apart.filter _, fun i hi => ?_, fun j hj => ?_⟩
    · rw [htotal]
      exact h.inside f (List.mem_filter.mp hf).1
    · rw [htotal] at hi
      rw [hentries]
      refine h.encodes.drop_empty _ (fun f hf hq => ?_) i hi
      by_contra hlen
      exact hsome ⟨f, hf, by simpa using hq, by omega⟩
    · rw [htotal]
      rcases hwritten j hj with hw | hw
      · exact h.written j hw
      · exact hw

end BasicOS

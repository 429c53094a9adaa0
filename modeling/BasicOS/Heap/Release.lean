import BasicOS.Heap.Safety

/-! The entry table over runs of requests there is room for.

`HeapState.Fits` asks of every request that it needs a block or more and that a run of free
entries as long exists. In every state of such a run the table is the encoding of the live
allocations and of nothing else (`table_exact_on_fitting_runs`): so the release loop, which
knows no length, clears the blocks of its own allocation, whatever stands next to it, and
after the last release every entry is free.

The heap may lie anywhere, also over the end of the address space: block numbers are found
from addresses modulo `2 ^ 32`. -/
namespace BasicOS
open Lib HeapTable

/-- The request needs a block or more, and as many free entries in a row exist. -/
def HeapState.Fits (s : HeapState) : HeapOp → Prop
  | .alloc size => 1 ≤ blocksOf size ∧ ∃ r, s.heap.table.RunFree r (blocksOf size)
  | .free _ => True

/-- The blocks of a live allocation, as `(start, n)`. -/
def Heap.extentOf (heap : Heap) (a : LiveAlloc) : Extent :=
  ⟨u32 (a.ptr + 2 ^ 32 - heap.baseAddr) / heapBlockSize, blocksOf a.size⟩

/-- What the table is in a state with these live allocations, and what releases do to it. -/
structure TableExact (s : HeapState) : Prop where
  inside : ∀ a ∈ s.live, 1 ≤ (s.heap.extentOf a).len ∧
    (s.heap.extentOf a).start + (s.heap.extentOf a).len ≤ s.heap.table.totalEntries
  apart : (s.live.map s.heap.extentOf).Pairwise Extent.Apart
  encodes : ∀ i : Nat, i < s.heap.table.totalEntries →
    s.heap.table.entries i = encoding (s.live.map s.heap.extentOf) i
  release : ∀ a ∈ s.live, ∀ j : Int, (heapFree s.heap a.ptr).table.entries j =
    if ((s.heap.extentOf a).start : Int) ≤ j ∧ j < ((s.heap.extentOf a).start + (s.heap.extentOf a).len : Nat) then
      heapBlockTableEntryFree
    else s.heap.table.entries j
  emptied : ∀ ptrs : List Nat, ptrs.Perm (s.live.map (·.ptr)) → ∀ i : Nat, i < s.heap.table.totalEntries →
    (ptrs.foldl heapFree s.heap).table.entries i = heapBlockTableEntryFree

/-! ### The invariant -/

/-- The heap holds the extents of the live allocations, and their addresses are those of
their first blocks. -/
structure HeapExact (s : HeapState) : Prop where
  reps : HeapReps s.heap (s.live.map s.heap.extentOf)
  base : s.heap.baseAddr < 2 ^ 32
  total : s.heap.table.totalEntries ≤ 2 ^ 20
  placed : ∀ a ∈ s.live, ∃ b, b < 2 ^ 20 ∧ a.ptr = heapBlockToAddress s.heap b ∧ 1 ≤ blocksOf a.size

variable {s : HeapState} {a c : LiveAlloc} {b : Nat}

/-- The block number of an address the heap gave out. -/
theorem blockOf_address {heap : Heap} (hbase : heap.baseAddr < 2 ^ 32) (hb : b < 2 ^ 20) :
    u32 (heapBlockToAddress heap b + 2 ^ 32 - heap.baseAddr) / heapBlockSize = b := by
  unfold heapBlockToAddress u32
  simp only [heapBlockSize]
  omega

theorem extentOf_address {heap : Heap} (hbase : heap.baseAddr < 2 ^ 32) (hb : b < 2 ^ 20)
    (h : a.ptr = heapBlockToAddress heap b) : heap.extentOf a = ⟨b, blocksOf a.size⟩ := by
  unfold Heap.extentOf
  rw [h, blockOf_address hbase hb]

theorem heapFree_baseAddr (heap : Heap) (ptr : Nat) : (heapFree heap ptr).baseAddr = heap.baseAddr := by
  unfold heapFree
  rw [heapMarkBlocksAsFree_baseAddr]

theorem heapFree_extentOf (heap : Heap) (ptr : Nat) : (heapFree heap ptr).extentOf = heap.extentOf := by
  funext a
  unfold Heap.extentOf
  rw [heapFree_baseAddr]

theorem HeapExact.extent (h : HeapExact s) (ha : a ∈ s.live) :
    ∃ b, b < 2 ^ 20 ∧ a.ptr = heapBlockToAddress s.heap b ∧ s.heap.extentOf a = ⟨b, blocksOf a.size⟩ ∧
      1 ≤ blocksOf a.size ∧ b + blocksOf a.size ≤ s.heap.table.totalEntries := by
  obtain ⟨b, hb, hptr, hlen⟩ := h.placed a ha
  have hext := extentOf_address h.base hb hptr
  exact ⟨b, hb, hptr, hext, hlen, h.reps.inside _ (List.mem_map.mpr ⟨a, ha, hext⟩)⟩

/-- Releasing a live allocation starts the loop in its first block. -/
theorem HeapExact.heapFree_eq (h : HeapExact s) (ha : a ∈ s.live) :
    heapFree s.heap a.ptr = heapMarkBlocksAsFree s.heap (s.heap.extentOf a).start := by
  obtain ⟨b, hb, hptr, hext, _⟩ := h.extent ha
  unfold heapFree heapAddressToBlock
  rw [u32OfInt_s32, hext, hptr, blockOf_address h.base hb, u32_of_lt (by omega)]

/-- The release loop clears the blocks of the allocation. -/
theorem HeapExact.released (h : HeapExact s) (ha : a ∈ s.live) :
    Released s.heap.table (heapFree s.heap a.ptr).table (s.heap.extentOf a) 0 := by
  obtain ⟨b, hb, hptr, hext, hlen, hin⟩ := h.extent ha
  have hmem : s.heap.extentOf a ∈ s.live.map s.heap.extentOf := List.mem_map_of_mem ha
  have hin' := h.reps.inside _ hmem
  rw [h.heapFree_eq ha]
  refine heapMarkBlocksAsFree_spec s.heap _ (by rwa [hext]) hin' fun i hi => ?_
  exact (h.reps.encodes i (Nat.lt_of_lt_of_le hi.2 hin')).trans (encoding_holds h.reps.apart hmem hi)

/-- Different live allocations start in different blocks. -/
theorem HeapExact.ptr_eq (h : HeapExact s) (ha : a ∈ s.live) (hc : c ∈ s.live) :
    c.ptr = a.ptr ↔ (s.heap.extentOf c).start = (s.heap.extentOf a).start := by
  obtain ⟨b, hb, hptr, hext, _⟩ := h.extent ha
  obtain ⟨d, hd, hptr', hext', _⟩ := h.extent hc
  rw [hext, hext']
  constructor
  · intro heq
    have hstart := blockOf_address h.base hd
    rw [← hptr', heq, hptr, blockOf_address h.base hb] at hstart
    exact hstart.symm
  · rintro (rfl : d = b)
    rw [hptr, hptr']

/-! ### One operation -/

theorem heapExact_alloc (h : HeapExact s) {size : Nat} (hfit : s.Fits (.alloc size)) :
    HeapExact (s.step (.alloc size)) := by
  obtain ⟨hpos, hroom⟩ := hfit
  obtain ⟨r, _, hrun, hfirst⟩ := heapGetStartBlock_found s.heap h.reps.total hpos hroom
  have hend := hrun.1
  have htotal := h.total
  have halloc := heapAlloc_first s.heap h.reps.total hpos hrun hfirst (by omega) (by omega)
  have hmarked := heapMarkBlocksAsTaken_spec s.heap ⟨r, blocksOf size⟩ hpos
  simp only [HeapState.step, halloc]
  refine ⟨?_, h.base, ?_, fun a ha => ?_⟩
  · show HeapReps _ (s.heap.extentOf ⟨heapBlockToAddress s.heap r, size⟩ :: s.live.map s.heap.extentOf)
    rw [extentOf_address h.base (show r < 2 ^ 20 by omega) rfl]
    exact h.reps.take hpos hrun
  · exact hmarked.total.trans_le htotal
  · rcases List.mem_cons.mp ha with rfl | ha
    · exact ⟨r, by omega, rfl, hpos⟩
    · exact h.placed a ha

theorem heapExact_free (h : HeapExact s) (ha : a ∈ s.live) : HeapExact (s.step (.free a.ptr)) := by
  have hreleased := h.released ha
  obtain ⟨b, hb, hptr, hext, hlen, hin⟩ := h.extent ha
  have hmem : s.heap.extentOf a ∈ s.live.map s.heap.extentOf := List.mem_map_of_mem ha
  have hmap := map_filter_start s.heap.extentOf fun c hc => h.ptr_eq ha hc
  have hreps := h.reps.release (b := (s.heap.extentOf a).start) (.inl ⟨_, hmem, rfl, by rwa [hext]⟩)
  rw [← h.heapFree_eq ha, ← hmap] at hreps
  have hbase := heapFree_baseAddr s.heap a.ptr
  have hext' := heapFree_extentOf s.heap a.ptr
  have htotal := hreleased.total
  simp only [HeapState.step]
  generalize heapFree s.heap a.ptr = heap at hreps hbase hext' htotal ⊢
  refine ⟨?_, ?_, ?_, fun c hc => ?_⟩
  · rw [hext']
    exact hreps
  · rw [hbase]
    exact h.base
  · rw [htotal]
    exact h.total
  · obtain ⟨b, hb, hptr, hlen⟩ := h.placed c (List.mem_filter.mp hc).1
    refine ⟨b, hb, ?_, hlen⟩
    unfold heapBlockToAddress at hptr ⊢
    rw [hbase]
    exact hptr

/-! ### Releasing everything -/

theorem HeapExact.ptr_nodup (h : HeapExact s) : (s.live.map (·.ptr)).Nodup := by
  refine List.pairwise_map.mpr ?_
  refine (List.pairwise_map.mp h.reps.apart).imp_of_mem fun {a c} ha hc hac heq => ?_
  obtain ⟨b, _, _, hext, hlen, _⟩ := h.extent ha
  obtain ⟨d, _, _, hext', hlen', _⟩ := h.extent hc
  have hstart := (h.ptr_eq hc ha).mp heq
  rw [hext, hext'] at hac hstart
  obtain rfl : b = d := hstart
  exact hac b ⟨Nat.le_refl b, by simp only; omega⟩ ⟨Nat.le_refl b, by simp only; omega⟩

theorem heapExact_emptied (h : HeapExact s) (ptrs : List Nat) (hperm : ptrs.Perm (s.live.map (·.ptr))) {i : Nat}
    (hi : i < s.heap.table.totalEntries) :
    (ptrs.foldl heapFree s.heap).table.entries i = heapBlockTableEntryFree := by
  -- one release after another, each of a live allocation
  induction ptrs generalizing s with
  | nil =>
    have hlive : s.live = [] := by simpa using hperm.symm.eq_nil
    show s.heap.table.entries i = _
    rw [h.reps.encodes i hi, hlive]
    rfl
  | cons ptr rest ih =>
    obtain ⟨a, ha, rfl⟩ := List.mem_map.mp (hperm.subset (List.mem_cons_self ..))
    have hnext := heapExact_free h ha
    have hrest : rest.Perm ((s.step (.free a.ptr)).live.map (·.ptr)) := by
      have hmap : (s.step (.free a.ptr)).live.map (·.ptr) = (s.live.map (·.ptr)).erase a.ptr := by
        rw [h.ptr_nodup.erase_eq_filter, List.filter_map]
        show (s.live.filter _).map _ = _
        congr 1
        apply List.filter_congr
        intro c _
        by_cases hc : c.ptr = a.ptr <;> simp [hc]
      rw [hmap]
      simpa using hperm.erase a.ptr
    exact ih hnext hrest ((h.released ha).total ▸ hi)

theorem HeapExact.exact (h : HeapExact s) : TableExact s := by
  refine ⟨fun a ha => ?_, h.reps.apart, h.reps.encodes, fun a ha j => ?_, fun ptrs hperm i hi =>
    heapExact_emptied h ptrs hperm hi⟩
  · obtain ⟨b, _, _, hext, hlen, hin⟩ := h.extent ha
    rw [hext]
    exact ⟨hlen, hin⟩
  · have hreleased := h.released ha
    split
    · rename_i hj
      obtain ⟨i, rfl⟩ := Int.eq_ofNat_of_zero_le (show 0 ≤ j by omega)
      exact hreleased.inside i (by omega) (by omega)
    · exact hreleased.outside j (by omega)

/-- The table `make_heap` accepts as matching has at most `2 ^ 20` entries. -/
theorem makeHeap_matching {heap : Heap} {mem : Nat → Nat} {ptr endAddr : Nat} {table : HeapTable}
    (h : (makeHeap heap mem ptr endAddr table).res = 0) : table.totalEntries ≤ 2 ^ 20 := by
  have hsize := u32_lt (endAddr + 2 ^ 32 - ptr)
  unfold makeHeap heapValidateTable at h
  split at h
  · exact absurd h (show ¬ (-einvarg : Int) = 0 by decide)
  · simp only at h
    by_cases hmatch : table.totalEntries = u32 (endAddr + 2 ^ 32 - ptr) / heapBlockSize
    · rw [hmatch]
      simp only [heapBlockSize]
      omega
    · simp only [ne_eq, if_pos hmatch] at h
      rw [if_neg (by decide)] at h
      exact absurd h (show ¬ ((u32OfInt (-einvarg) % 2 ^ 8 : Nat) : Int) = 0 by decide)

/-- **On runs of requests there is room for the table is exact**: it encodes the live
allocations, a release clears the blocks of its own allocation and no other, and when all
are released, in any order, every entry is free. -/
theorem table_exact_on_fitting_runs (heap : Heap) (mem : Nat → Nat) (ptr endAddr : Nat) (entries : Int → Nat)
    (total : Nat) (hptr : ptr < 2 ^ 32) (hres : (makeHeap heap mem ptr endAddr ⟨entries, total, []⟩).res = 0)
    {s : HeapState}
    (hrun : HeapRun HeapState.Fits (makeHeap heap mem ptr endAddr ⟨entries, total, []⟩).heap s) : TableExact s := by
  refine HeapExact.exact (hrun.invariant (I := HeapExact) (fun s hs => ?_) fun s op t h hok hstep => ?_)
  · subst hs
    have htotal := makeHeap_matching hres
    have hres' : 0 ≤ (makeHeap heap mem ptr endAddr ⟨entries, total, []⟩).res := by omega
    have haccepted := makeHeap_accepted hres'
    have hreps := heapReps_start (Nat.lt_of_le_of_lt htotal (by decide)) hres'
    refine ⟨hreps, ?_, ?_, fun a ha => (by cases ha)⟩
    · rw [haccepted]
      exact hptr
    · rw [haccepted]
      show (HeapTable.clear _ _).totalEntries ≤ _
      rw [(clear_spec _ _).1]
      exact htotal
  · subst hstep
    obtain ⟨hlegal, hfit⟩ := hok
    cases op with
    | alloc size => exact heapExact_alloc h hfit
    | free ptr =>
      obtain ⟨a, ha, rfl⟩ := hlegal
      exact heapExact_free h ha

/-- A heap of two blocks gives both to a request of 5000 bytes and takes them back. -/
theorem table_exact_taken_and_released :
    TableExact (((HeapState.mk (makeHeap ⟨⟨fun _ => 0, 0, []⟩, 0⟩ (fun _ => 0) 0x1000 0x3000
      ⟨fun _ => 0, 2, []⟩).heap []).step (.alloc 5000)).step (.free 0x1000)) := by
  refine table_exact_on_fitting_runs ⟨⟨fun _ => 0, 0, []⟩, 0⟩ (fun _ => 0) 0x1000 0x3000 (fun _ => 0) 2 (by decide)
    (by decide) (HeapRun.next (.free 0x1000) (HeapRun.next (.alloc 5000) (.start rfl) (by decide : 5000 < 2 ^ 32)
      ⟨by decide, 0, by decide, fun i _ hi => ?_⟩) ⟨⟨0x1000, 5000⟩, by decide, rfl⟩ trivial)
  have hblocks : blocksOf 5000 = 2 := by decide
  have hi : i = 0 ∨ i = 1 := by omega
  rcases hi with rfl | rfl
  · decide
  · decide

end BasicOS

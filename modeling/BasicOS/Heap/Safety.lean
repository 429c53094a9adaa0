import BasicOS.Heap.Encoding
import BasicOS.Lib.Run

/-! Heap safety over whole runs.

A run starts from a heap `make_heap` accepted and takes `heap_alloc` and
`heap_free` in any order, each address freed being one that is live. `HeapSafe`
is what a caller relies on in every state: a live address starts a range of the
size asked for inside the heap, live block ranges do not meet, and no store went
outside the entry table.

The code does not keep this on every run: a request that finds too few free
entries, or rounds past `2 ^ 32`, is served all the same (`heap_unsafe_when_short`).
`Granted` names the requests and releases it serves as promised, and
`heap_safe_on_granted_runs` says that runs of such operations are safe. The
invariant behind it is `HeapInv`: the table encodes the live extents. -/
namespace BasicOS
open Lib HeapTable

/-! ### Runs -/

/-- The number of blocks `heap_alloc` asks for. -/
def blocksOf (size : Nat) : Nat := heapAlignSize size / heapBlockSize

/-- An address `heap_alloc` returned for a request of `size` bytes. -/
structure LiveAlloc where
  ptr : Nat
  size : Nat
deriving DecidableEq, Repr

/-- The blocks of a live allocation, counted from the heap's first. -/
def LiveAlloc.extent (base : Nat) (a : LiveAlloc) : Extent :=
  ⟨(a.ptr - base) / heapBlockSize, blocksOf a.size⟩

/-- The bytes of the blocks of a live allocation. -/
def LiveAlloc.bytes (a : LiveAlloc) : Extent := ⟨a.ptr, blocksOf a.size * heapBlockSize⟩

structure HeapState where
  heap : Heap
  live : List LiveAlloc

inductive HeapOp where
  | alloc (size : Nat)
  | free (ptr : Nat)

def HeapState.step (s : HeapState) : HeapOp → HeapState
  | .alloc size => ⟨(heapAlloc s.heap size).2, ⟨(heapAlloc s.heap size).1, size⟩ :: s.live⟩
  | .free ptr => ⟨heapFree s.heap ptr, s.live.filter (·.ptr ≠ ptr)⟩

/-- Any 32-bit size may be asked for; only live addresses are freed. -/
def HeapState.Legal (s : HeapState) : HeapOp → Prop
  | .alloc size => size < 2 ^ 32
  | .free ptr => ∃ a ∈ s.live, a.ptr = ptr

/-- A request for `size ≥ 1` bytes is granted when it does not round past `2 ^ 32` and
the first run of free entries long enough for it lies below 4 GiB; a request for no
bytes when the last entry of a heap below 4 GiB is free. A release is granted for an
allocation that has blocks, or while the block at its address is still free. -/
def HeapState.Granted (s : HeapState) : HeapOp → Prop
  | .alloc size =>
    (size = 0 ∧ 0 < s.heap.table.totalEntries ∧ s.heap.table.Free (s.heap.table.totalEntries - 1) ∧
      s.heap.baseAddr + s.heap.table.totalEntries * heapBlockSize ≤ 2 ^ 32) ∨
    (1 ≤ size ∧ size ≤ 2 ^ 32 - heapBlockSize ∧ ∃ r, s.heap.table.RunFree r (blocksOf size) ∧
      s.heap.table.NoRunBefore (blocksOf size) r ∧
      s.heap.baseAddr + (r + blocksOf size) * heapBlockSize ≤ 2 ^ 32)
  | .free ptr => (∃ a ∈ s.live, a.ptr = ptr ∧ 1 ≤ a.size) ∨
    s.heap.table.Free ((ptr - s.heap.baseAddr) / heapBlockSize)

/-- The states of the runs from a heap, by operations that are legal and satisfy `ok`. -/
abbrev HeapRun (ok : HeapState → HeapOp → Prop) (heap : Heap) : HeapState → Prop :=
  Run (fun s op t => t = s.step op) (fun s op => s.Legal op ∧ ok s op) (· = ⟨heap, []⟩)

theorem HeapRun.next {ok : HeapState → HeapOp → Prop} {heap : Heap} {s : HeapState} (op : HeapOp)
    (h : HeapRun ok heap s) (hlegal : s.Legal op) (hok : ok s op) : HeapRun ok heap (s.step op) :=
  .step h ⟨hlegal, hok⟩ rfl

structure HeapSafe (s : HeapState) : Prop where
  inside : ∀ a ∈ s.live, s.heap.baseAddr ≤ a.ptr ∧
    a.ptr + a.size ≤ s.heap.baseAddr + s.heap.table.totalEntries * heapBlockSize
  disjoint : s.live.Pairwise fun a b => Extent.Apart a.bytes b.bytes
  written : ∀ j ∈ s.heap.table.written, 0 ≤ j ∧ j < s.heap.table.totalEntries

/-! ### Sizes and addresses -/

theorem blocksOf_zero : blocksOf 0 = 0 := rfl

/-- A size that does not round past `2 ^ 32` fits its blocks, with less than a block to spare. -/
theorem blocksOf_eq {size : Nat} (h : size ≤ 2 ^ 32 - heapBlockSize) :
    blocksOf size = (size + (heapBlockSize - 1)) / heapBlockSize := by
  unfold blocksOf heapAlignSize u32
  simp only [heapBlockSize] at *
  split <;> omega

theorem size_le_blocks {size : Nat} (h : size ≤ 2 ^ 32 - heapBlockSize) :
    size ≤ blocksOf size * heapBlockSize := by
  rw [blocksOf_eq h]
  simp only [heapBlockSize] at *
  omega

theorem blocksOf_pos {size : Nat} (h1 : 1 ≤ size) (h : size ≤ 2 ^ 32 - heapBlockSize) :
    1 ≤ blocksOf size := by
  rw [blocksOf_eq h]
  simp only [heapBlockSize] at *
  omega

theorem blocksOf_lt {size : Nat} (h : size ≤ 2 ^ 32 - heapBlockSize) : blocksOf size < 2 ^ 20 := by
  rw [blocksOf_eq h]
  simp only [heapBlockSize] at *
  omega

theorem heapAddressToBlock_eq (heap : Heap) {ptr : Nat} (hbase : heap.baseAddr ≤ ptr) (hptr : ptr < 2 ^ 32) :
    u32OfInt (heapAddressToBlock heap ptr) = (ptr - heap.baseAddr) / heapBlockSize := by
  have hsub : u32 (ptr + 2 ^ 32 - heap.baseAddr) = ptr - heap.baseAddr := by
    unfold u32
    omega
  unfold heapAddressToBlock
  rw [hsub, u32OfInt_s32, u32_of_lt]
  simp only [heapBlockSize]
  omega

/-! ### One request -/

/-- A request there is room for takes the first fit. -/
theorem heapAlloc_first (heap : Heap) {size r : Nat} (htotal : heap.table.totalEntries < 2 ^ 32)
    (hpos : 1 ≤ blocksOf size) (hrun : heap.table.RunFree r (blocksOf size))
    (hfirst : heap.table.NoRunBefore (blocksOf size) r) (hr : r < 2 ^ 31) (hn : blocksOf size < 2 ^ 31) :
    heapAlloc heap size = (heapBlockToAddress heap r, heapMarkBlocksAsTaken heap r (blocksOf size)) := by
  obtain ⟨s, hs, hsrun, hsfirst⟩ := heapGetStartBlock_found heap htotal hpos ⟨r, hrun⟩
  have hsr : s = r := runFree_unique hsrun hsfirst hrun hfirst
  subst hsr
  show heapAllocBlocks heap (blocksOf size) = _
  unfold heapAllocBlocks
  simp only [hs, s32_of_lt hr, u32OfInt_natCast, u32_of_lt (show s < 2 ^ 32 by omega),
    Nat.not_lt_zero, if_false, s32_of_lt hn]

/-- A granted request for at least one byte takes the first fit. -/
theorem heapAlloc_granted (heap : Heap) {size r : Nat} (htotal : heap.table.totalEntries < 2 ^ 32)
    (h1 : 1 ≤ size) (hsize : size ≤ 2 ^ 32 - heapBlockSize)
    (hrun : heap.table.RunFree r (blocksOf size)) (hfirst : heap.table.NoRunBefore (blocksOf size) r)
    (hfit : heap.baseAddr + (r + blocksOf size) * heapBlockSize ≤ 2 ^ 32) :
    heapAlloc heap size =
      (heap.baseAddr + r * heapBlockSize, heapMarkBlocksAsTaken heap r (blocksOf size)) := by
  have hpos := blocksOf_pos h1 hsize
  have hlt := blocksOf_lt hsize
  rw [heapAlloc_first heap htotal hpos hrun hfirst (by simp only [heapBlockSize] at hfit; omega) (by omega)]
  unfold heapBlockToAddress
  rw [u32_of_lt (by simp only [heapBlockSize] at *; omega)]

/-- A request for no bytes, with the last entry free, returns the start of the free
entries at the end and marks nothing. -/
theorem heapAlloc_zero (heap : Heap) (htotal : heap.table.totalEntries < 2 ^ 32)
    (hpos : 0 < heap.table.totalEntries) (hlast : heap.table.Free (heap.table.totalEntries - 1))
    (hfit : heap.baseAddr + heap.table.totalEntries * heapBlockSize ≤ 2 ^ 32) :
    ∃ b, b < heap.table.totalEntries ∧ heapAlloc heap 0 = (heap.baseAddr + b * heapBlockSize, heap) := by
  generalize hres : heapGetStartBlock heap 0 = res
  have h := heapGetStartBlock_spec heap 0 htotal
  rw [hres] at h
  cases h with
  | found hn _ _ => omega
  | none _ hnone => exact absurd hlast (hnone.resolve_left (by omega))
  | @short b _ ht =>
    refine ⟨b, ht.lt, ?_⟩
    have hb : b < heap.table.totalEntries := ht.lt
    show heapAllocBlocks heap 0 = _
    unfold heapAllocBlocks
    simp only [hres, u32OfInt_s32, u32_of_lt (show b < 2 ^ 32 by omega), Nat.not_lt_zero, if_false]
    unfold heapBlockToAddress
    rw [u32_of_lt (by simp only [heapBlockSize] at *; omega)]
    rfl

/-! ### Making the heap -/

theorem clear_spec (t : HeapTable) (n : Nat) :
    (t.clear n).totalEntries = t.totalEntries ∧
      (∀ j : Int, (t.clear n).entries j =
        if 0 ≤ j ∧ j < n then heapBlockTableEntryFree else t.entries j) ∧
      ∀ j ∈ (t.clear n).written, j ∈ t.written ∨ 0 ≤ j ∧ j < n := by
  induction n with
  | zero =>
    refine ⟨rfl, fun j => ?_, fun j hj => .inl hj⟩
    rw [if_neg (by omega)]
    rfl
  | succ n ih =>
    obtain ⟨htotal, hentries, hwritten⟩ := ih
    refine ⟨htotal, fun j => ?_, fun j hj => ?_⟩
    · simp only [HeapTable.clear, store_entries, hentries]
      split
      · rw [if_pos (by omega)]
      · split
        · rw [if_pos (by omega)]
        · rw [if_neg (by omega)]
    · simp only [HeapTable.clear, store_written, List.mem_cons] at hj
      rcases hj with rfl | hj
      · exact .inr (by omega)
      · rcases hwritten j hj with h | h
        · exact .inl h
        · exact .inr (by omega)

/-- A heap `make_heap` accepted starts at `ptr` and has all entries free. -/
theorem makeHeap_accepted {heap : Heap} {mem : Nat → Nat} {ptr endAddr : Nat} {table : HeapTable}
    (h : 0 ≤ (makeHeap heap mem ptr endAddr table).res) :
    (makeHeap heap mem ptr endAddr table).heap = ⟨table.clear table.totalEntries, ptr⟩ := by
  unfold makeHeap at h ⊢
  split at h <;> rename_i halign
  · exact absurd h (by simp [einvarg])
  · rw [if_neg halign]
    simp only
    rw [if_neg (by omega)]

/-! ### The invariant -/

/-- The heap holds the extents of the live allocations, each of which has its address
in the heap and room for the bytes asked for. -/
structure HeapInv (s : HeapState) : Prop where
  reps : HeapReps s.heap (s.live.map (LiveAlloc.extent s.heap.baseAddr))
  placed : ∀ a ∈ s.live, ∃ b, a.ptr = s.heap.baseAddr + b * heapBlockSize ∧ a.ptr < 2 ^ 32 ∧
    a.size ≤ blocksOf a.size * heapBlockSize

theorem extent_of_ptr {base b : Nat} {a : LiveAlloc} (h : a.ptr = base + b * heapBlockSize) :
    a.extent base = ⟨b, blocksOf a.size⟩ := by
  unfold LiveAlloc.extent
  rw [h, Nat.add_sub_cancel_left, Nat.mul_div_cancel _ (by decide)]

theorem heapReps_start {heap : Heap} {mem : Nat → Nat} {ptr endAddr : Nat} {entries : Int → Nat} {total : Nat}
    (htotal : total < 2 ^ 32) (h : 0 ≤ (makeHeap heap mem ptr endAddr ⟨entries, total, []⟩).res) :
    HeapReps (makeHeap heap mem ptr endAddr ⟨entries, total, []⟩).heap [] := by
  rw [makeHeap_accepted h]
  obtain ⟨ht, hentries, hwritten⟩ := clear_spec ⟨entries, total, []⟩ total
  refine ⟨?_, fun e he => (by cases he), List.Pairwise.nil, fun i hi => ?_, fun j hj => ?_⟩
  · show (HeapTable.clear _ _).totalEntries < _
    rw [ht]
    exact htotal
  · simp only [ht] at hi
    simp only [hentries]
    rw [if_pos (by omega)]
    rfl
  · rw [ht]
    rcases hwritten j hj with h | h
    · cases h
    · exact h

/-- The allocations that do not start where `a` starts are the others. -/
theorem map_filter_start {live : List LiveAlloc} {a : LiveAlloc} (f : LiveAlloc → Extent)
    (h : ∀ c ∈ live, (c.ptr = a.ptr ↔ (f c).start = (f a).start)) :
    (live.filter (·.ptr ≠ a.ptr)).map f = (live.map f).filter (·.start ≠ (f a).start) := by
  rw [List.filter_map]
  congr 1
  apply List.filter_congr
  intro c hc
  simp only [Function.comp]
  rw [decide_eq_decide, ne_eq, ne_eq, h c hc]

/-- A granted request keeps the invariant. -/
theorem heapInv_alloc {s : HeapState} (h : HeapInv s) {size : Nat} (hg : s.Granted (.alloc size)) :
    HeapInv (s.step (.alloc size)) := by
  rcases hg with ⟨rfl, hpos, hlast, hfit⟩ | ⟨h1, hsize, r, hrun, hfirst, hfit⟩
  · -- no blocks: the table stays and the new extent is empty
    obtain ⟨b, hb, heq⟩ := heapAlloc_zero s.heap h.reps.total hpos hlast hfit
    simp only [HeapState.step, heq]
    refine ⟨?_, fun a ha => ?_⟩
    · have hext : LiveAlloc.extent s.heap.baseAddr ⟨s.heap.baseAddr + b * heapBlockSize, 0⟩ = ⟨b, 0⟩ :=
        (extent_of_ptr rfl).trans (by rw [blocksOf_zero])
      show HeapReps s.heap (List.map _ (_ :: s.live))
      rw [List.map_cons, hext]
      exact h.reps.take_empty (Nat.le_of_lt hb)
    · rcases List.mem_cons.mp ha with rfl | ha
      · refine ⟨b, rfl, ?_, Nat.zero_le _⟩
        simp only [heapBlockSize] at *
        omega
      · exact h.placed a ha
  · have hpos := blocksOf_pos h1 hsize
    simp only [HeapState.step, heapAlloc_granted s.heap h.reps.total h1 hsize hrun hfirst hfit]
    refine ⟨?_, fun a ha => ?_⟩
    · rw [List.map_cons, heapMarkBlocksAsTaken_baseAddr, extent_of_ptr rfl]
      exact h.reps.take hpos hrun
    · rcases List.mem_cons.mp ha with rfl | ha
      · refine ⟨r, rfl, ?_, size_le_blocks hsize⟩
        simp only [heapBlockSize] at *
        omega
      · exact h.placed a ha

/-- A granted release keeps the invariant. -/
theorem heapInv_free {s : HeapState} (h : HeapInv s) {ptr : Nat} (hlegal : s.Legal (.free ptr))
    (hg : s.Granted (.free ptr)) : HeapInv (s.step (.free ptr)) := by
  obtain ⟨a₀, ha₀, rfl⟩ := hlegal
  obtain ⟨b, hb, hlt, _⟩ := h.placed a₀ ha₀
  have hsub : (a₀.ptr - s.heap.baseAddr) / heapBlockSize = b := by
    rw [hb, Nat.add_sub_cancel_left, Nat.mul_div_cancel _ (by decide)]
  have hfree : heapFree s.heap a₀.ptr = heapMarkBlocksAsFree s.heap b := by
    unfold heapFree
    rw [heapAddressToBlock_eq s.heap (by omega) hlt, hsub]
  -- the freed allocations are those whose extent starts at block `b`
  have hmap : (s.live.filter (·.ptr ≠ a₀.ptr)).map (LiveAlloc.extent s.heap.baseAddr) =
      (s.live.map (LiveAlloc.extent s.heap.baseAddr)).filter (·.start ≠ b) := by
    have hextent : (a₀.extent s.heap.baseAddr).start = b := hsub
    rw [← hextent]
    refine map_filter_start (LiveAlloc.extent s.heap.baseAddr) fun a ha => ?_
    obtain ⟨c, hc, _, _⟩ := h.placed a ha
    rw [hextent, extent_of_ptr hc, hc, hb]
    simp only [heapBlockSize]
    omega
  have hstart : (∃ e ∈ s.live.map (LiveAlloc.extent s.heap.baseAddr), e.start = b ∧ 1 ≤ e.len) ∨
      s.heap.table.Free b := by
    rcases hg with ⟨a, ha, haptr, hsize⟩ | hfreeEntry
    · obtain ⟨_, _, _, hle⟩ := h.placed a ha
      refine .inl ⟨_, List.mem_map.mpr ⟨a, ha, extent_of_ptr (haptr.trans hb)⟩, rfl, ?_⟩
      simp only [heapBlockSize] at hle ⊢
      omega
    · exact .inr (hsub ▸ hfreeEntry)
  simp only [HeapState.step, hfree]
  exact ⟨by rw [heapMarkBlocksAsFree_baseAddr, hmap]; exact h.reps.release hstart,
    fun a ha => h.placed a (List.mem_filter.mp ha).1⟩

/-- The invariant is the callers' safety. -/
theorem HeapInv.safe {s : HeapState} (h : HeapInv s) : HeapSafe s := by
  refine ⟨fun a ha => ?_, ?_, h.reps.written⟩
  · obtain ⟨b, hb, _, hsize⟩ := h.placed a ha
    have hfit := h.reps.inside _ (List.mem_map.mpr ⟨a, ha, extent_of_ptr hb⟩)
    simp only [heapBlockSize] at *
    omega
  · refine (List.pairwise_map.mp h.reps.apart).imp_of_mem fun {a c} ha hc hac i hi hj => ?_
    obtain ⟨b, hb, _, _⟩ := h.placed a ha
    obtain ⟨d, hd, _, _⟩ := h.placed c hc
    rw [extent_of_ptr hb, extent_of_ptr hd] at hac
    -- the block of a shared byte would be shared by the two extents
    refine hac ((i - s.heap.baseAddr) / heapBlockSize) ?_ ?_ <;>
      simp only [Extent.Holds, LiveAlloc.bytes, heapBlockSize] at * <;> omega

/-- **Runs of granted operations are safe**: every live address starts a range of the
size asked for inside the heap, live block ranges are pairwise disjoint, and only
entries of the table are ever written. -/
theorem heap_safe_on_granted_runs (heap : Heap) (mem : Nat → Nat) (ptr endAddr : Nat)
    (entries : Int → Nat) (total : Nat) (htotal : total < 2 ^ 32)
    (hres : 0 ≤ (makeHeap heap mem ptr endAddr ⟨entries, total, []⟩).res) {s : HeapState}
    (hrun : HeapRun HeapState.Granted (makeHeap heap mem ptr endAddr ⟨entries, total, []⟩).heap s) :
    HeapSafe s := by
  refine HeapInv.safe (hrun.invariant (I := HeapInv) (fun s hs => ?_) fun s op t h hok hstep => ?_)
  · rw [hs]
    exact ⟨heapReps_start htotal hres, fun a ha => by cases ha⟩
  · subst hstep
    obtain ⟨hlegal, hg⟩ := hok
    cases op with
    | alloc size => exact heapInv_alloc h hg
    | free ptr => exact heapInv_free h hlegal hg

/-- A heap of four blocks serves 100 and 5000 bytes, takes the first block back and gives
it to the next request. -/
theorem heap_safe_reuse :
    HeapSafe (((((HeapState.mk (makeHeap ⟨⟨fun _ => 0, 0, []⟩, 0⟩ (fun _ => 0) 0x1000 0x5000
      ⟨fun _ => 0, 4, []⟩).heap []).step (.alloc 100)).step (.alloc 5000)).step (.free 0x1000)).step
      (.alloc 4096)) := by
  have hrun : HeapRun HeapState.Granted (makeHeap ⟨⟨fun _ => 0, 0, []⟩, 0⟩ (fun _ => 0) 0x1000 0x5000
      ⟨fun _ => 0, 4, []⟩).heap _ := .start rfl
  have hfirst := hrun.next (.alloc 100) (by decide : 100 < 2 ^ 32)
    (.inr ⟨by decide, by decide, 0, by decide, by decide, by decide⟩)
  have hsecond := hfirst.next (.alloc 5000) (by decide : 5000 < 2 ^ 32)
    (.inr ⟨by decide, by decide, 1, by decide, by decide, by decide⟩)
  have hfreed := hsecond.next (.free 0x1000) ⟨⟨0x1000, 100⟩, by decide, rfl⟩
    (.inl ⟨⟨0x1000, 100⟩, by decide, rfl, by decide⟩)
  have hagain := hfreed.next (.alloc 4096) (by decide : 4096 < 2 ^ 32)
    (.inr ⟨by decide, by decide, 0, by decide, by decide, by decide⟩)
  exact heap_safe_on_granted_runs ⟨⟨fun _ => 0, 0, []⟩, 0⟩ (fun _ => 0) 0x1000 0x5000 (fun _ => 0) 4
    (by decide) (by decide) hagain

/-- **Without room the request is served all the same**: in a heap of one block,
8192 bytes get the two blocks from the first on, and the store that marks the
second goes past the table. -/
theorem heap_unsafe_when_short :
    ¬ ∀ (heap : Heap) (mem : Nat → Nat) (ptr endAddr : Nat) (entries : Int → Nat) (total : Nat),
      total < 2 ^ 32 → 0 ≤ (makeHeap heap mem ptr endAddr ⟨entries, total, []⟩).res →
      ∀ s, HeapRun (fun _ _ => True) (makeHeap heap mem ptr endAddr ⟨entries, total, []⟩).heap s →
      HeapSafe s := by
  intro h
  have hstart : HeapRun (fun _ _ => True)
    (makeHeap ⟨⟨fun _ => 0, 0, []⟩, 0⟩ (fun _ => 0) 0x1000 0x2000 ⟨fun _ => 0, 1, []⟩).heap _ := .start rfl
  have hrun := hstart.next (.alloc 8192) (show 8192 < 2 ^ 32 by decide) trivial
  have hsafe := h ⟨⟨fun _ => 0, 0, []⟩, 0⟩ (fun _ => 0) 0x1000 0x2000 (fun _ => 0) 1 (by decide) (by decide) _ hrun
  exact absurd (hsafe.written 1 (by decide)) (by decide)

end BasicOS

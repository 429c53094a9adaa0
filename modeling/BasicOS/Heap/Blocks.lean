import BasicOS.Heap.Release
import Mathlib.Data.Finset.Card

/-! Blocks taken one at a time.

A request of at most a block takes the first free entry, wherever that is in the table, and
a release of that address makes it free again. `TakenFrom heap₀ heap xs` says that the heap
is `heap₀` with just the blocks `xs` taken besides: a request adds one while a free entry is
left (`TakenFrom.alloc`), a release takes it away (`TakenFrom.free`), and when all are
released, in any order, the table is that of `heap₀` (`TakenFrom.released`).

Entries with no type but with other bits would not come back as they were. There are none: a
free entry is a zero byte after any operations on the heap (`heap_clean`). -/
namespace BasicOS
open Lib HeapTable

/-- Free entries have no other bits. -/
def HeapTable.Clean (t : HeapTable) : Prop :=
  ∀ i : Nat, i < t.totalEntries → t.Free i → t.entries i = heapBlockTableEntryFree

/-- The blocks that are free. -/
def HeapTable.freeBlocks (t : HeapTable) : Finset Nat := (Finset.range t.totalEntries).filter fun i => t.Free i

theorem mem_freeBlocks {t : HeapTable} {i : Nat} : i ∈ t.freeBlocks ↔ i < t.totalEntries ∧ t.Free i := by
  unfold HeapTable.freeBlocks
  rw [Finset.mem_filter, Finset.mem_range]

/-- The entry of a block that is an allocation of its own. -/
abbrev singleEntry : Nat := heapBlockTableEntryTaken ||| heapMasksAllocationIsFirstEntry

theorem mark_single (b : Nat) : mark ⟨b, 1⟩ b = singleEntry := by
  unfold mark
  rw [if_pos rfl, if_neg (Nat.lt_irrefl _)]
  rfl

/-! ### Any operations -/

/-- The states of the heap after any requests and any releases, also of what is not live. -/
abbrev HeapReached (heap : Heap) : HeapState → Prop :=
  Run (fun s op t => t = s.step op) (fun _ _ => True) (· = ⟨heap, []⟩)

theorem HeapTable.Clean.store {t : HeapTable} {entry : Nat} (h : t.Clean) (i : Int)
    (hentry : heapGetEntryType entry = heapBlockTableEntryFree → entry = heapBlockTableEntryFree) :
    (t.store i entry).Clean := by
  intro k hk hfree
  unfold HeapTable.Free at hfree
  rw [store_entries] at hfree ⊢
  split at hfree
  · rw [if_pos ‹_›]
    exact hentry hfree
  · rw [if_neg ‹_›]
    exact h k hk hfree

theorem heapMarkTakenFrom_clean (endBlock : Int) (fuel : Nat) {i : Int} {entry : Nat} {t : HeapTable} (h : t.Clean)
    (hentry : heapGetEntryType entry = heapBlockTableEntryFree → entry = heapBlockTableEntryFree) :
    (heapMarkTakenFrom endBlock fuel i entry t).Clean ∧
      (heapMarkTakenFrom endBlock fuel i entry t).totalEntries = t.totalEntries := by
  induction fuel generalizing i entry t with
  | zero => exact ⟨h, rfl⟩
  | succ fuel ih =>
    unfold heapMarkTakenFrom
    split
    · refine ih (h.store i hentry) ?_
      split <;> exact fun hfree => absurd hfree (by decide)
    · exact ⟨h, rfl⟩

theorem heapMarkFreeFrom_clean (fuel : Nat) {i : Nat} {t : HeapTable} (h : t.Clean) :
    (heapMarkFreeFrom fuel i t).Clean ∧ (heapMarkFreeFrom fuel i t).totalEntries = t.totalEntries := by
  induction fuel generalizing i t with
  | zero => exact ⟨h, rfl⟩
  | succ fuel ih =>
    have hstore := h.store i fun _ => rfl
    unfold heapMarkFreeFrom
    simp only
    split
    · exact ⟨hstore, rfl⟩
    · exact ih hstore

theorem heapAllocBlocks_clean {heap : Heap} (h : heap.table.Clean) (totalBlocks : Nat) :
    (heapAllocBlocks heap totalBlocks).2.table.Clean ∧
      (heapAllocBlocks heap totalBlocks).2.table.totalEntries = heap.table.totalEntries ∧
      (heapAllocBlocks heap totalBlocks).2.baseAddr = heap.baseAddr := by
  have hfirst : ∀ n : Int, heapGetEntryType (if n > 1 then singleEntry ||| heapMasksAllocationExtendsNextBlock
      else singleEntry) ≠ heapBlockTableEntryFree := by
    intro n
    split <;> decide
  unfold heapAllocBlocks heapMarkBlocksAsTaken
  rw [if_neg (Nat.not_lt_zero _)]
  obtain ⟨hclean, htotal⟩ := heapMarkTakenFrom_clean _ _ h fun hfree => absurd hfree (hfirst _)
  exact ⟨hclean, htotal, rfl⟩

theorem heapMarkBlocksAsFree_clean {heap : Heap} (h : heap.table.Clean) (b : Nat) :
    (heapMarkBlocksAsFree heap b).table.Clean ∧
      (heapMarkBlocksAsFree heap b).table.totalEntries = heap.table.totalEntries ∧
      (heapMarkBlocksAsFree heap b).baseAddr = heap.baseAddr := by
  obtain ⟨hclean, htotal⟩ := heapMarkFreeFrom_clean (heap.table.totalEntries - b) h
  exact ⟨hclean, htotal, rfl⟩

/-- One operation leaves the place of the heap alone, and free entries zero. -/
theorem heapStep_clean {s : HeapState} (h : s.heap.table.Clean) (op : HeapOp) :
    (s.step op).heap.table.Clean ∧ (s.step op).heap.table.totalEntries = s.heap.table.totalEntries ∧
      (s.step op).heap.baseAddr = s.heap.baseAddr := by
  cases op with
  | alloc size => exact heapAllocBlocks_clean h (blocksOf size)
  | free ptr => exact heapMarkBlocksAsFree_clean h (u32OfInt (heapAddressToBlock s.heap ptr))

/-- **Free entries are zero bytes**, whatever was asked for and released. -/
theorem heap_clean {heap : Heap} {mem : Nat → Nat} {ptr endAddr : Nat} {table : HeapTable} {s : HeapState}
    (hres : 0 ≤ (makeHeap heap mem ptr endAddr table).res)
    (hrun : HeapReached (makeHeap heap mem ptr endAddr table).heap s) :
    s.heap.table.Clean ∧ s.heap.table.totalEntries = table.totalEntries ∧ s.heap.baseAddr = ptr := by
  refine hrun.invariant (I := fun t => t.heap.table.Clean ∧ t.heap.table.totalEntries = table.totalEntries ∧
    t.heap.baseAddr = ptr) (fun t ht => ?_) fun t op u h _ hstep => ?_
  · obtain ⟨htotal, hentries, _⟩ := clear_spec table table.totalEntries
    rw [ht, makeHeap_accepted hres]
    refine ⟨fun i hi _ => ?_, htotal, rfl⟩
    change i < (table.clear table.totalEntries).totalEntries at hi
    rw [htotal] at hi
    exact (hentries i).trans (if_pos (by omega))
  · obtain ⟨hclean, htotal, hbase⟩ := heapStep_clean h.1 op
    rw [hstep]
    exact ⟨hclean, htotal.trans h.2.1, hbase.trans h.2.2⟩

/-! ### Single blocks -/

/-- The heap is `heap₀` with the blocks `xs` taken, each an allocation of its own. -/
structure TakenFrom (heap₀ heap : Heap) (xs : List Nat) : Prop where
  base : heap.baseAddr = heap₀.baseAddr
  total : heap.table.totalEntries = heap₀.table.totalEntries
  taken : ∀ b ∈ xs, heap.table.entries b = singleEntry
  others : ∀ j : Int, (∀ b ∈ xs, (b : Int) ≠ j) → heap.table.entries j = heap₀.table.entries j
  free : ∀ b ∈ xs, b < heap₀.table.totalEntries ∧ heap₀.table.entries b = heapBlockTableEntryFree
  nodup : xs.Nodup

variable {heap₀ heap : Heap} {xs : List Nat} {b size : Nat}

theorem TakenFrom.refl (heap : Heap) : TakenFrom heap heap [] :=
  ⟨rfl, rfl, fun b hb => (by cases hb), fun _ _ => rfl, fun b hb => (by cases hb), List.nodup_nil⟩

theorem TakenFrom.perm {ys : List Nat} (h : TakenFrom heap₀ heap xs) (hperm : xs.Perm ys) : TakenFrom heap₀ heap ys :=
  ⟨h.base, h.total, fun b hb => h.taken b (hperm.mem_iff.mpr hb), fun j hj => h.others j fun b hb =>
    hj b (hperm.mem_iff.mp hb),
    fun b hb => h.free b (hperm.mem_iff.mpr hb), hperm.nodup_iff.mp h.nodup⟩

theorem TakenFrom.address (h : TakenFrom heap₀ heap xs) (b : Nat) :
    heapBlockToAddress heap b = heapBlockToAddress heap₀ b := by
  unfold heapBlockToAddress
  rw [h.base]

/-- A free block is free there too, and none of those taken. -/
theorem TakenFrom.free_iff (h : TakenFrom heap₀ heap xs) : heap.table.Free b ↔ heap₀.table.Free b ∧ b ∉ xs := by
  by_cases hb : b ∈ xs
  · refine iff_of_false (fun hfree => ?_) fun hand => hand.2 hb
    unfold HeapTable.Free at hfree
    rw [h.taken b hb] at hfree
    exact absurd hfree (by decide)
  · unfold HeapTable.Free
    rw [h.others b fun c hc heq => hb (Int.ofNat_inj.mp heq ▸ hc), and_iff_left hb]

/-- **A request of one block takes a free one** while there is one. -/
theorem TakenFrom.alloc (h : TakenFrom heap₀ heap xs) (hclean : heap₀.table.Clean)
    (htotal : heap₀.table.totalEntries < 2 ^ 20) (hroom : xs.length < heap₀.table.freeBlocks.card)
    (hsize : blocksOf size = 1) :
    ∃ b, (heapAlloc heap size).1 = heapBlockToAddress heap₀ b ∧ TakenFrom heap₀ (heapAlloc heap size).2 (b :: xs) := by
  -- the blocks taken are fewer than those that were free
  obtain ⟨c, hc, hnew⟩ : ∃ c ∈ heap₀.table.freeBlocks, c ∉ xs.toFinset :=
    Finset.exists_mem_notMem_of_card_lt_card (Nat.lt_of_le_of_lt (List.toFinset_card_le xs) hroom)
  rw [mem_freeBlocks] at hc
  have hcfree : heap.table.Free c := h.free_iff.mpr ⟨hc.2, by simpa using hnew⟩
  have hrun : heap.table.RunFree c (blocksOf size) := by
    rw [hsize]
    refine ⟨by rw [h.total]; exact hc.1, fun i h1 h2 => ?_⟩
    obtain rfl : c = i := by omega
    exact hcfree
  obtain ⟨r, _, hr, hfirst⟩ := heapGetStartBlock_found heap (by rw [h.total]; omega) (by rw [hsize]) ⟨c, hrun⟩
  have hin : r < heap₀.table.totalEntries := by
    have := hr.1
    rw [hsize, h.total] at this
    omega
  obtain ⟨hrfree, hrnew⟩ := h.free_iff.mp (hr.2 r (Nat.le_refl r) (by rw [hsize]; omega))
  have halloc := heapAlloc_first heap (by rw [h.total]; omega) (by rw [hsize]) hr hfirst (by omega)
    (by rw [hsize]; decide)
  have hmarked := heapMarkBlocksAsTaken_spec heap ⟨r, 1⟩ (Nat.le_refl 1)
  rw [hsize] at halloc
  rw [halloc]
  refine ⟨r, h.address r, h.base, hmarked.total.trans h.total, fun b hb => ?_, fun j hj => ?_, fun b hb => ?_,
    List.nodup_cons.mpr ⟨hrnew, h.nodup⟩⟩
  · rcases List.mem_cons.mp hb with rfl | hb
    · exact (hmarked.inside b (Nat.le_refl _) (Nat.lt_succ_self _)).trans (mark_single b)
    · have hne : b ≠ r := fun heq => hrnew (heq ▸ hb)
      exact (hmarked.outside b (by simp only; omega)).trans (h.taken b hb)
  · have hne : (r : Int) ≠ j := hj r (List.mem_cons_self ..)
    exact (hmarked.outside j (by simp only; omega)).trans (h.others j fun b hb => hj b (List.mem_cons_of_mem r hb))
  · rcases List.mem_cons.mp hb with rfl | hb
    · exact ⟨hin, hclean b hin hrfree⟩
    · exact h.free b hb

/-- **The release of a block** leaves the others. -/
theorem TakenFrom.release (h : TakenFrom heap₀ heap xs) (hplaced : heap₀.Placed) (hb : b ∈ xs) :
    TakenFrom heap₀ (heapFree heap (heapBlockToAddress heap₀ b)) (xs.erase b) := by
  obtain ⟨hin, hzero⟩ := h.free b hb
  have htotal := hplaced.total_lt
  have hbelow := hplaced.below
  have hblock : u32OfInt (heapAddressToBlock heap (heapBlockToAddress heap₀ b)) = b := by
    have hnumber : u32 (heapBlockToAddress heap₀ b + 2 ^ 32 - heap₀.baseAddr) / heapBlockSize = b :=
      blockOf_address (by simp only [heapBlockSize] at hbelow; omega) (by omega)
    unfold heapAddressToBlock
    rw [u32OfInt_s32, h.base, hnumber, u32_of_lt (by omega)]
  have hreleased := heapMarkBlocksAsFree_spec heap ⟨b, 1⟩ (Nat.le_refl 1) (by rw [h.total]; exact hin) fun i hi => by
    rw [Extent.holds_mk] at hi
    obtain rfl : b = i := by omega
    exact (h.taken b hb).trans (mark_single b).symm
  unfold heapFree
  rw [hblock]
  refine ⟨h.base, hreleased.total.trans h.total, fun c hc => ?_, fun j hj => ?_, fun c hc =>
    h.free c (List.mem_of_mem_erase hc),
    h.nodup.erase b⟩
  · obtain ⟨hne, hc⟩ := h.nodup.mem_erase_iff.mp hc
    exact (hreleased.outside c (by simp only; omega)).trans (h.taken c hc)
  · by_cases hj' : j = b
    · rw [hj', hzero]
      exact hreleased.inside b (Nat.le_refl _) (Nat.lt_succ_self _)
    · refine (hreleased.outside j (by simp only; omega)).trans (h.others j fun c hc heq => ?_)
      have hne : c ≠ b := fun hcb => hj' (hcb ▸ heq.symm)
      exact hj c ((List.mem_erase_of_ne hne).mpr hc) heq

/-- **All released**, in any order: the table is as it was. -/
theorem TakenFrom.released (h : TakenFrom heap₀ heap xs) (hplaced : heap₀.Placed) {ptrs : List Nat}
    (hperm : ptrs.Perm (xs.map (heapBlockToAddress heap₀))) :
    (ptrs.foldl heapFree heap).table.entries = heap₀.table.entries := by
  induction ptrs generalizing heap xs with
  | nil =>
    have hnone : xs = [] := List.map_eq_nil_iff.mp hperm.symm.eq_nil
    exact funext fun j => h.others j fun b hb => by rw [hnone] at hb; cases hb
  | cons ptr rest ih =>
    obtain ⟨b, hb, rfl⟩ := List.mem_map.mp (hperm.subset (List.mem_cons_self ..))
    refine ih (h.release hplaced hb) (List.Perm.cons_inv (hperm.trans ?_))
    exact (List.perm_cons_erase hb).map (heapBlockToAddress heap₀)

/-- The address of a block in the heap's range. -/
theorem heapBlockToAddress_eq (hplaced : heap₀.Placed) (hb : b < heap₀.table.totalEntries) :
    heapBlockToAddress heap₀ b = heap₀.baseAddr + b * heapBlockSize := by
  have hbelow := hplaced.below
  unfold heapBlockToAddress
  rw [u32_of_lt]
  simp only [heapBlockSize] at *
  omega

/-- Different blocks have different addresses. -/
theorem TakenFrom.nodup_addresses (h : TakenFrom heap₀ heap xs) (hplaced : heap₀.Placed) :
    (xs.map (heapBlockToAddress heap₀)).Nodup := by
  refine h.nodup.map_on fun b hb c hc heq => ?_
  rw [heapBlockToAddress_eq hplaced (h.free b hb).1, heapBlockToAddress_eq hplaced (h.free c hc).1] at heq
  simp only [heapBlockSize] at heq
  omega

end BasicOS

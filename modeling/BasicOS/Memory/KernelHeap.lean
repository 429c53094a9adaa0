import BasicOS.Heap.Safety
import BasicOS.Memory.Contract

/-! The kernel heap meets the contract on the requests it can grant.

`kheap` is `kmalloc` and `kfree` over `kernel_heap`. It answers every request, also those
it has no room for; `Grants` are the others, and restricted to them it is an allocator as
`Contract` wants it (`kheapContract`). -/
namespace BasicOS
open Lib HeapTable

variable {H : Type}

def kheap : Allocator HeapState where
  kmalloc size s := some ((heapAlloc s.heap size).1, s.step (.alloc size))
  kfree ptr s := s.step (.free ptr)

/-- The allocator that answers only requests with `ok`. -/
noncomputable def Allocator.restrict (A : Allocator H) (ok : H → Nat → Prop) : Allocator H where
  kmalloc size h := open Classical in if ok h size then A.kmalloc size h else none
  kfree := A.kfree

theorem Allocator.restrict_of_ok {A : Allocator H} {ok : H → Nat → Prop} {h : H} {size : Nat} (hok : ok h size) :
    (A.restrict ok).kmalloc size h = A.kmalloc size h := if_pos hok

/-- The heap has room for the size, which is not zero and does not round past `2 ^ 32`. -/
def HeapState.Grants (s : HeapState) (size : Nat) : Prop :=
  1 ≤ size ∧ size ≤ 2 ^ 32 - heapBlockSize ∧ ∃ r, s.heap.table.RunFree r (blocksOf size)

/-- The blocks of the allocation at `p`. -/
def HeapState.pages (s : HeapState) (p : Nat) : Nat :=
  match s.live.find? fun a => a.ptr = p with
  | some a => blocksOf a.size
  | none => 0

/-- The heap of `kheap_init` after granted requests. -/
structure HeapState.Sound (s : HeapState) : Prop where
  inv : HeapInv s
  base : s.heap.baseAddr = heapBaseAddress
  total : s.heap.table.totalEntries = heapMaxHeapBlocksEntries
  sized : ∀ a ∈ s.live, 1 ≤ a.size

variable {s : HeapState} {a b : LiveAlloc} {p size : Nat}

/-! ### Live allocations -/

/-- The blocks of a live allocation. -/
theorem HeapState.Sound.extent (h : s.Sound) (ha : a ∈ s.live) :
    ∃ b, a.ptr = heapBaseAddress + b * heapBlockSize ∧ a.extent s.heap.baseAddr = ⟨b, blocksOf a.size⟩ ∧
      1 ≤ blocksOf a.size ∧ b + blocksOf a.size ≤ heapMaxHeapBlocksEntries := by
  obtain ⟨b, hb, _, hroom⟩ := h.inv.placed a ha
  have hext := extent_of_ptr hb
  have hin := h.inv.reps.inside _ (List.mem_map.mpr ⟨a, ha, hext⟩)
  have hsize := h.sized a ha
  rw [h.total] at hin
  rw [h.base] at hb
  refine ⟨b, hb, hext, ?_, hin⟩
  simp only [heapBlockSize] at hroom
  omega

/-- No two live allocations have the same address. -/
theorem HeapState.Sound.ptr_inj (h : s.Sound) :
    s.live.Pairwise fun a b => a.ptr ≠ b.ptr := by
  refine (List.pairwise_map.mp h.inv.reps.apart).imp_of_mem fun {a c} ha hc hac heq => ?_
  obtain ⟨b, hb, hext, hpos, _⟩ := h.extent ha
  obtain ⟨d, hd, hext', hpos', _⟩ := h.extent hc
  rw [hext, hext'] at hac
  have hbd : b = d := by
    simp only [heapBlockSize] at hb hd
    omega
  subst hbd
  exact hac b ⟨Nat.le_refl b, by simp only; omega⟩ ⟨Nat.le_refl b, by simp only; omega⟩

theorem HeapState.Sound.find?_eq (h : s.Sound) (ha : a ∈ s.live) :
    s.live.find? (fun b => b.ptr = a.ptr) = some a := by
  have hpair := h.ptr_inj
  generalize s.live = live at hpair ha
  induction live with
  | nil => cases ha
  | cons c live ih =>
    obtain ⟨hc, hpair⟩ := List.pairwise_cons.mp hpair
    rcases List.mem_cons.mp ha with rfl | ha
    · exact List.find?_cons_of_pos (by simp)
    · rw [List.find?_cons_of_neg (by simpa using hc a ha)]
      exact ih hpair ha

theorem HeapState.Sound.pages_eq (h : s.Sound) (ha : a ∈ s.live) : s.pages a.ptr = blocksOf a.size := by
  unfold HeapState.pages
  rw [h.find?_eq ha]

theorem HeapState.pages_ne_zero (hp : s.pages p ≠ 0) : ∃ a ∈ s.live, a.ptr = p ∧ s.pages p = blocksOf a.size := by
  unfold HeapState.pages at hp ⊢
  cases hfind : s.live.find? fun a => a.ptr = p with
  | none =>
    rw [hfind] at hp
    exact absurd rfl hp
  | some a => exact ⟨a, List.mem_of_find?_eq_some hfind, by simpa using List.find?_some hfind, rfl⟩

theorem HeapState.pages_eq_zero (h : ∀ a ∈ s.live, a.ptr ≠ p) : s.pages p = 0 := by
  by_contra hp
  obtain ⟨a, ha, hptr, _⟩ := HeapState.pages_ne_zero hp
  exact h a ha hptr

/-- The entries of a live block are taken. -/
theorem HeapState.Sound.taken (h : s.Sound) (ha : a ∈ s.live) {i : Nat} (hi : (a.extent s.heap.baseAddr).Holds i) :
    i < heapMaxHeapBlocksEntries ∧ ¬ s.heap.table.Free i := by
  obtain ⟨b, _, hext, _, hin⟩ := h.extent ha
  have hit : i < heapMaxHeapBlocksEntries := by
    rw [hext] at hi
    exact Nat.lt_of_lt_of_le hi.2 hin
  refine ⟨hit, fun hfree => ?_⟩
  exact (h.inv.reps.encodes.free_iff (h.total ▸ hit)).mp hfree _ (List.mem_map_of_mem ha) hi

/-- The entries of the block of `n` pages at `ptr`. -/
def blockEntries (ptr n : Nat) : Extent := ⟨(ptr - heapBaseAddress) / heapBlockSize, n⟩

/-- A live block is the extent of its allocation. -/
theorem HeapState.Sound.extent_of_pages (h : s.Sound) (hp : s.pages p ≠ 0) :
    ∃ a ∈ s.live, a.ptr = p ∧ a.extent s.heap.baseAddr = blockEntries p (s.pages p) := by
  obtain ⟨a, ha, rfl, hpages⟩ := HeapState.pages_ne_zero hp
  refine ⟨a, ha, rfl, ?_⟩
  rw [hpages, h.base]
  rfl

/-- The entries of a live block have its marks. -/
theorem HeapState.Sound.entry_held (h : s.Sound) (hp : s.pages p ≠ 0) {i : Nat}
    (hi : (blockEntries p (s.pages p)).Holds i) :
    s.heap.table.entries i = mark (blockEntries p (s.pages p)) i := by
  obtain ⟨a, ha, _, hext⟩ := h.extent_of_pages hp
  rw [← hext] at hi ⊢
  exact (h.inv.reps.encodes i (h.total ▸ (h.taken ha hi).1)).trans
    (encoding_holds h.inv.reps.apart (List.mem_map_of_mem ha) hi)

/-- An entry of no live block is free. -/
theorem HeapState.Sound.entry_free (h : s.Sound) {i : Nat} (hi : i < heapMaxHeapBlocksEntries)
    (hnone : ∀ p, s.pages p ≠ 0 → ¬ (blockEntries p (s.pages p)).Holds i) :
    s.heap.table.entries i = heapBlockTableEntryFree := by
  have hholder : holder (s.live.map (LiveAlloc.extent s.heap.baseAddr)) i = none := by
    refine holder_eq_none.mpr fun e he hheld => ?_
    obtain ⟨a, ha, rfl⟩ := List.mem_map.mp he
    have hlive : s.pages a.ptr ≠ 0 := by
      obtain ⟨_, _, _, hpos, _⟩ := h.extent ha
      rw [h.pages_eq ha]
      omega
    refine hnone a.ptr hlive ?_
    rw [h.pages_eq ha]
    rw [h.base] at hheld
    exact hheld
  rw [h.inv.reps.encodes i (h.total ▸ hi)]
  unfold encoding
  rw [hholder]

/-- The live blocks determine the entry table. -/
theorem HeapState.Sound.entries_eq {t : HeapState} (h : s.Sound) (ht : t.Sound) (hpages : t.pages = s.pages) {i : Nat}
    (hi : i < heapMaxHeapBlocksEntries) : t.heap.table.entries i = s.heap.table.entries i := by
  by_cases hheld : ∃ p, s.pages p ≠ 0 ∧ (blockEntries p (s.pages p)).Holds i
  · obtain ⟨p, hp, hpi⟩ := hheld
    rw [h.entry_held hp hpi, ht.entry_held (p := p) (by rwa [hpages]) (by rwa [hpages]), hpages]
  · have hnone : ∀ p, s.pages p ≠ 0 → ¬ (blockEntries p (s.pages p)).Holds i := fun p hp hpi => hheld ⟨p, hp, hpi⟩
    rw [h.entry_free hi hnone, ht.entry_free hi (by rwa [hpages])]

/-- An entry belongs to one live block. -/
theorem HeapState.Sound.block_inj {q i : Nat} (h : s.Sound) (hp : s.pages p ≠ 0) (hq : s.pages q ≠ 0)
    (hpi : (blockEntries p (s.pages p)).Holds i) (hqi : (blockEntries q (s.pages q)).Holds i) : p = q := by
  obtain ⟨a, ha, rfl, hext⟩ := h.extent_of_pages hp
  obtain ⟨c, hc, rfl, hext'⟩ := h.extent_of_pages hq
  obtain ⟨b, hb, _⟩ := h.extent ha
  obtain ⟨d, hd, _⟩ := h.extent hc
  have hheld := holder_eq_some h.inv.reps.apart (List.mem_map_of_mem ha) (hext ▸ hpi)
  have hheld' := holder_eq_some h.inv.reps.apart (List.mem_map_of_mem hc) (hext' ▸ hqi)
  have heq := Option.some_inj.mp (hheld.symm.trans hheld')
  rw [hext, hext'] at heq
  have hstart := congrArg Extent.start heq
  simp only [blockEntries, heapBaseAddress, heapBlockSize] at *
  omega

/-- The table of a heap with one block more. -/
theorem HeapState.Sound.entries_update {t : HeapState} {n i : Nat} (h : s.Sound) (ht : t.Sound)
    (hpages : t.pages = Function.update s.pages p n) (hnew : s.pages p = 0) (hn : n ≠ 0)
    (hi : i < heapMaxHeapBlocksEntries) :
    if (blockEntries p n).Holds i then s.heap.table.entries i = heapBlockTableEntryFree ∧
      t.heap.table.entries i = mark (blockEntries p n) i
    else t.heap.table.entries i = s.heap.table.entries i := by
  have hself : t.pages p = n := by rw [hpages, Function.update_self]
  have hother : ∀ q, s.pages q ≠ 0 → q ≠ p ∧ t.pages q = s.pages q := by
    intro q hq
    have hne : q ≠ p := fun heq => hq (heq ▸ hnew)
    exact ⟨hne, by rw [hpages, Function.update_of_ne hne]⟩
  have hlive : t.pages p ≠ 0 := by rwa [hself]
  split
  · rename_i hin
    rw [← hself] at hin ⊢
    refine ⟨h.entry_free hi fun q hq hqi => ?_, ht.entry_held hlive hin⟩
    obtain ⟨hne, hkept⟩ := hother q hq
    rw [← hkept] at hq hqi
    exact hne (ht.block_inj hq hlive hqi hin)
  · rename_i hout
    by_cases hheld : ∃ q, s.pages q ≠ 0 ∧ (blockEntries q (s.pages q)).Holds i
    · obtain ⟨q, hq, hqi⟩ := hheld
      obtain ⟨_, hkept⟩ := hother q hq
      rw [h.entry_held hq hqi, ht.entry_held (p := q) (by rwa [hkept]) (by rwa [hkept]), hkept]
    · have hnone : ∀ q, s.pages q ≠ 0 → ¬ (blockEntries q (s.pages q)).Holds i := fun q hq hqi => hheld ⟨q, hq, hqi⟩
      rw [h.entry_free hi hnone]
      refine ht.entry_free hi fun q hq hqi => ?_
      by_cases hqp : q = p
      · subst hqp
        exact hout (hself ▸ hqi)
      · have hkept : t.pages q = s.pages q := by rw [hpages, Function.update_of_ne hqp]
        rw [hkept] at hq hqi
        exact hnone q hq hqi

/-! ### The operations -/

/-- A request that can be granted gets the first fit. -/
theorem HeapState.Sound.alloc (h : s.Sound) (hg : s.Grants size) :
    (s.step (.alloc size)).Sound ∧ s.pages (heapAlloc s.heap size).1 = 0 ∧ 1 ≤ blocksOf size ∧
      (s.step (.alloc size)).pages = Function.update s.pages (heapAlloc s.heap size).1 (blocksOf size) := by
  obtain ⟨h1, hsize, hroom⟩ := hg
  have hpos := blocksOf_pos h1 hsize
  obtain ⟨r, _, hrun, hfirst⟩ := heapGetStartBlock_found s.heap h.inv.reps.total hpos hroom
  have hend := hrun.1
  have hfit : s.heap.baseAddr + (r + blocksOf size) * heapBlockSize ≤ 2 ^ 32 := by
    rw [h.base]
    rw [h.total] at hend
    simp only [heapBaseAddress, heapBlockSize, heapMaxHeapBlocksEntries] at *
    omega
  have halloc := heapAlloc_granted s.heap h.inv.reps.total h1 hsize hrun hfirst hfit
  have hsound : (s.step (.alloc size)).Sound := by
    refine ⟨heapInv_alloc h.inv (.inr ⟨h1, hsize, r, hrun, hfirst, hfit⟩), ?_, ?_, fun a ha => ?_⟩
    · simp only [HeapState.step, halloc, heapMarkBlocksAsTaken_baseAddr]
      exact h.base
    · simp only [HeapState.step, halloc]
      exact (heapMarkBlocksAsTaken_spec s.heap ⟨r, blocksOf size⟩ hpos).total.trans h.total
    · rcases List.mem_cons.mp ha with rfl | ha
      · exact h1
      · exact h.sized a ha
  -- a live allocation at that address would hold its first block
  have hfresh : ∀ a ∈ s.live, a.ptr ≠ (heapAlloc s.heap size).1 := by
    intro a ha heq
    obtain ⟨b, hb, hext, hlen, _⟩ := h.extent ha
    rw [halloc, h.base] at heq
    have hbr : b = r := by
      simp only [heapBlockSize] at heq hb
      omega
    subst hbr
    refine (h.taken ha (i := b) (hext ▸ ⟨Nat.le_refl b, by simp only; omega⟩)).2 ?_
    exact hrun.2 b (Nat.le_refl b) (by omega)
  refine ⟨hsound, HeapState.pages_eq_zero hfresh, hpos, funext fun p => ?_⟩
  show (match List.find? _ (_ :: s.live) with | some a => blocksOf a.size | none => 0) = _
  by_cases hp : p = (heapAlloc s.heap size).1
  · subst hp
    rw [List.find?_cons_of_pos (by simp), Function.update_self]
  · rw [List.find?_cons_of_neg (by simpa using fun h => hp h.symm), Function.update_of_ne hp]
    rfl

theorem HeapState.pages_free (s : HeapState) (ptr : Nat) :
    (s.step (.free ptr)).pages = Function.update s.pages ptr 0 := by
  funext p
  by_cases hp : p = ptr
  · subst hp
    rw [Function.update_self]
    refine HeapState.pages_eq_zero fun a ha => ?_
    simpa using (List.mem_filter.mp ha).2
  · rw [Function.update_of_ne hp]
    show (match List.find? _ (s.live.filter _) with | some a => blocksOf a.size | none => 0) = _
    rw [List.find?_filter]
    unfold HeapState.pages
    have hsame : (fun a : LiveAlloc => decide (decide (a.ptr ≠ ptr) = true ∧ decide (a.ptr = p) = true)) =
        fun a => decide (a.ptr = p) := by
      funext a
      by_cases ha : a.ptr = p
      · simp [ha, hp]
      · simp [ha]
    rw [hsame]

/-- Releasing a live allocation. -/
theorem HeapState.Sound.free (h : s.Sound) (ha : a ∈ s.live) : (s.step (.free a.ptr)).Sound := by
  have hinv := heapInv_free h.inv ⟨a, ha, rfl⟩ (.inl ⟨a, ha, rfl, h.sized a ha⟩)
  obtain ⟨b, hb, hext, hlen, hin⟩ := h.extent ha
  have hmarked := h.inv.reps.encodes
  refine ⟨hinv, ?_, ?_, fun c hc => h.sized c (List.mem_filter.mp hc).1⟩
  · show (heapMarkBlocksAsFree s.heap _).baseAddr = _
    rw [heapMarkBlocksAsFree_baseAddr]
    exact h.base
  · rw [show (s.step (.free a.ptr)).heap = heapFree s.heap a.ptr from rfl]
    unfold heapFree
    rw [heapAddressToBlock_eq s.heap (by rw [h.base]; omega) (by
      simp only [heapBaseAddress, heapBlockSize, heapMaxHeapBlocksEntries] at *
      omega)]
    have hstart : (a.ptr - s.heap.baseAddr) / heapBlockSize = (a.extent s.heap.baseAddr).start := rfl
    rw [hstart]
    refine (heapMarkBlocksAsFree_spec s.heap (a.extent s.heap.baseAddr) ?_ ?_ fun i hi => ?_).total.trans h.total
    · rwa [hext]
    · rw [hext, h.total]
      exact hin
    · have hit := (h.taken ha hi).1
      exact (hmarked i (h.total ▸ hit)).trans
        (encoding_holds h.inv.reps.apart (List.mem_map_of_mem ha) hi)

/-- A null pointer is no address of the heap. -/
theorem HeapState.Sound.free_null (h : s.Sound) : (s.step (.free 0)).Sound ∧ (s.step (.free 0)).pages = s.pages := by
  have hnull : ∀ a ∈ s.live, a.ptr ≠ 0 := by
    intro a ha
    obtain ⟨b, hb, _⟩ := h.extent ha
    simp only [heapBaseAddress] at hb
    omega
  have hlive : s.live.filter (·.ptr ≠ 0) = s.live :=
    List.filter_eq_self.mpr fun a ha => by simpa using hnull a ha
  have hblock : u32OfInt (heapAddressToBlock s.heap 0) = 1044480 := by
    unfold heapAddressToBlock
    rw [u32OfInt_s32, h.base]
    decide
  have hheap : heapFree s.heap 0 = s.heap := by
    unfold heapFree heapMarkBlocksAsFree
    rw [hblock, h.total]
    rfl
  have hstep : s.step (.free 0) = s := by
    show HeapState.mk (heapFree s.heap 0) (s.live.filter _) = s
    rw [hheap, hlive]
  rw [hstep]
  exact ⟨h, rfl⟩

/-! ### The contract -/

/-- **The kernel heap keeps the contract** on the requests it grants. -/
noncomputable def kheapContract : Contract (kheap.restrict HeapState.Grants) where
  Valid := HeapState.Sound
  live := HeapState.pages
  placed := by
    intro s p h hp
    obtain ⟨a, ha, rfl, hpages⟩ := HeapState.pages_ne_zero hp
    obtain ⟨b, hb, _, _, hin⟩ := h.extent ha
    rw [hpages, hb]
    simp only [heapBaseAddress, heapBlockSize, heapMaxHeapBlocksEntries, heapMaxHeapSize] at *
    omega
  apart := by
    intro s p q h hp hq hne
    obtain ⟨a, ha, rfl, hpages⟩ := HeapState.pages_ne_zero hp
    obtain ⟨c, hc, rfl, hpages'⟩ := HeapState.pages_ne_zero hq
    obtain ⟨b, hb, hext, hlen, _⟩ := h.extent ha
    obtain ⟨d, hd, hext', hlen', _⟩ := h.extent hc
    rw [h.base] at hext hext'
    have hapart : Extent.Apart ⟨b, blocksOf a.size⟩ ⟨d, blocksOf c.size⟩ := by
      rw [← hext, ← hext']
      intro i hi hi'
      refine hne (h.block_inj hp hq (i := i) ?_ ?_)
      · rw [hpages]
        exact hi
      · rw [hpages']
        exact hi'
    have horder := hapart.order (by simp only; omega) (by simp only; omega)
    rw [hpages, hpages', hb, hd]
    simp only [heapBlockSize] at *
    omega
  malloc := by
    intro s size ptr s' h hk
    by_cases hg : s.Grants size
    · rw [Allocator.restrict_of_ok hg] at hk
      cases hk
      obtain ⟨hsound, hfresh, hpos, hpages⟩ := h.alloc hg
      refine ⟨hsound, .inr ⟨hfresh, blocksOf size, by omega, size_le_blocks hg.2.1, hpages⟩⟩
    · simp only [Allocator.restrict, if_neg hg] at hk
      cases hk
  free := by
    intro s p h hp
    obtain ⟨a, ha, rfl, _⟩ := HeapState.pages_ne_zero hp
    exact ⟨h.free ha, s.pages_free a.ptr⟩
  free_null := fun h => h.free_null

/-- What has room is answered, whatever was given out and taken back meanwhile. -/
theorem HeapState.Sound.answers (h : s.Sound) (hg : s.Grants size) : kheapContract.Answers s size := by
  intro t ht hlive
  obtain ⟨h1, hsize, b, hend, hrun⟩ := hg
  have hgrants : t.Grants size := by
    refine ⟨h1, hsize, b, ?_, fun i hi1 hi2 => ?_⟩
    · rw [ht.total, ← h.total]
      exact hend
    · have hi : i < heapMaxHeapBlocksEntries := by
        rw [h.total] at hend
        omega
      unfold HeapTable.Free
      rw [h.entries_eq ht hlive hi]
      exact hrun i hi1 hi2
  rw [Allocator.restrict_of_ok hgrants]
  exact Option.some_ne_none _

end BasicOS

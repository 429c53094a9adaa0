import BasicOS.Process.Lifetimes
import BasicOS.Process.UserAllocations

/-! A program's allocation and its release undo each other and touch nothing else.

`LocalChange` says what one of the two calls may change: the slot, the entries of the block in
the heap's table, the words of its pages in the process's directory. The block stays as
`process_malloc` left it (`Holding`) through whatever programs allocate and release meanwhile, so that
`process_free` finds it (`processMalloc_free_local`). -/
namespace BasicOS
open Lib Program HeapTable

/-! ### What a call may change -/

/-- What slot `i` of the process records. -/
def Kernel.slot {H : Type} (s : Kernel H) (p i : Nat) : Option ProcessAllocation :=
  (s.process p).map fun P => P.allocations i

/-- The entries of its block. -/
abbrev ProcessAllocation.entries (a : ProcessAllocation) : Extent := blockEntries a.ptr (blocksOf a.size)

/-- The allocation keeps its slot, the entries of its pages and their words. -/
structure KeepsAllocation (live : Nat → Prop) (s t : Kernel HeapState) (q j : Nat) (c : ProcessAllocation) : Prop where
  slot : RecordedAt live t q j c
  entries : ∀ k, c.Covers k → t.ram.heap.heap.table.entries (k - heapBaseAddress / heapBlockSize : Nat) =
    s.ram.heap.heap.table.entries (k - heapBaseAddress / heapBlockSize : Nat)
  words : ∀ k, c.Covers k → t.pageWord q k = s.pageWord q k

/-- Only the slot of `a`, the entries of its block and the words of its pages changed. -/
structure LocalChange (live : Nat → Prop) (s t : Kernel HeapState) (p i : Nat) (a : ProcessAllocation) : Prop where
  slotsOnly : SlotsOnly s t p
  slots : ∀ j, j ≠ i → t.slot p j = s.slot p j
  entries : ∀ j : Nat, j < heapMaxHeapBlocksEntries → ¬ a.entries.Holds j →
    t.ram.heap.heap.table.entries j = s.ram.heap.heap.table.entries j
  words : ∀ q k, live q → k < 2 ^ 20 → ¬ (q = p ∧ a.Covers k) → t.pageWord q k = s.pageWord q k
  others : ∀ q j c, RecordedAt live s q j c → ¬ (q = p ∧ j = i) → KeepsAllocation live s t q j c

/-- Slot `i` records `a`: its entries are taken, its pages are mapped to themselves. -/
structure Holding (s : Kernel HeapState) (p i : Nat) (a : ProcessAllocation) : Prop where
  slot : s.slot p i = some a
  entries : ∀ j, a.entries.Holds j → s.ram.heap.heap.table.entries j = mark a.entries j
  words : ∀ k, a.Covers k → s.pageWord p k = some (k * pagingPageSize + rightsWritable)

/-- Slot `i` and the entries of `a` are free. -/
structure Vacant (s : Kernel HeapState) (p i : Nat) (a : ProcessAllocation) : Prop where
  slot : s.slot p i = some ⟨0, 0⟩
  entries : ∀ j, a.entries.Holds j → s.ram.heap.heap.table.entries j = heapBlockTableEntryFree

/-- The pages of `a` are not present. -/
def Absent (s : Kernel HeapState) (p : Nat) (a : ProcessAllocation) : Prop :=
  ∀ k, a.Covers k → ∃ word, s.pageWord p k = some word ∧ word % 2 = 0

variable {live : Nat → Prop} {s t : Kernel HeapState} {L L' : Ledger} {p q i k size ptr : Nat} {a : ProcessAllocation}
  {sp sp' : Space}

/-! ### Two ledgers that differ in one block -/

theorem UserInvariant.slot (h : UserInvariant live s L) (hsp : L.space p = some sp) (i : Nat) :
    s.slot p i = some (sp.allocation i) := by
  obtain ⟨P, T, D, hheld⟩ := h.accounts.held p sp hsp
  unfold Kernel.slot
  rw [hheld.process, ← hheld.allocation]
  rfl

theorem UserInvariant.pageWord (h : UserInvariant live s L) (hsp : L.space p = some sp) (hk : k < 2 ^ 20) :
    s.pageWord p k = some (sp.entry k) := by
  obtain ⟨P, T, D, hheld⟩ := h.accounts.held p sp hsp
  exact hheld.pageWord hk

/-- One ledger has a block more than the other, in slot `i` of `p`. -/
structure Ledger.OneMore (L L' : Ledger) (p i : Nat) (sp sp' : Space) (a : ProcessAllocation) : Prop where
  own : L.space p = some sp
  own' : L'.space p = some sp'
  others : ∀ q, q ≠ p → L'.space q = L.space q
  slots : ∀ j, j ≠ i → sp'.allocation j = sp.allocation j
  entry : ∀ k, ¬ a.Covers k → sp'.entry k = sp.entry k
  new : L.pages a.ptr = 0
  pages : L'.pages = Function.update L.pages a.ptr (blocksOf a.size)

theorem Ledger.oneMore_malloc (hsp : L.space p = some sp) (hnew : L.pages ptr = 0) :
    L.OneMore (L.malloc p sp i ptr size (blocksOf size)) p i sp (sp.malloc i ptr size) ⟨ptr, size⟩ :=
  ⟨hsp, Function.update_self .., fun _ hq => Function.update_of_ne hq .., fun _ hj => Function.update_of_ne hj ..,
    fun _ hk => mapSelf_other hk, hnew, rfl⟩

theorem Ledger.oneMore_free (hsp : L.space p = some sp)
    (hlive : L.pages (sp.allocation i).ptr = blocksOf (sp.allocation i).size) :
    (L.free p sp i).OneMore L p i (sp.free i) sp (sp.allocation i) := by
  refine ⟨Function.update_self .., hsp, fun q hq => (Function.update_of_ne hq ..).symm,
    fun j hj => (Function.update_of_ne hj ..).symm, fun k hk => (mapSelf_other hk).symm, Function.update_self .., ?_⟩
  show L.pages = Function.update (Function.update L.pages _ 0) _ _
  rw [Function.update_idem, ← hlive, Function.update_eq_self]

/-- The tables differ in the entries of that block. -/
theorem Ledger.OneMore.entries (h : L.OneMore L' p i sp sp' a) (hs : UserInvariant live s L)
    (ht : UserInvariant live t L')
    (hsize : blocksOf a.size ≠ 0) {j : Nat} (hj : j < heapMaxHeapBlocksEntries) :
    if a.entries.Holds j then s.ram.heap.heap.table.entries j = heapBlockTableEntryFree ∧
      t.ram.heap.heap.table.entries j = mark a.entries j
    else t.ram.heap.heap.table.entries j = s.ram.heap.heap.table.entries j := by
  have hpages := h.pages
  have hnew := h.new
  rw [hs.pages, ht.pages] at hpages
  rw [hs.pages] at hnew
  exact hs.sound_heap.entries_update ht.sound_heap hpages hnew hsize hj

/-- The words differ on the pages of that block. -/
theorem Ledger.OneMore.words (h : L.OneMore L' p i sp sp' a) (hs : UserInvariant live s L)
    (ht : UserInvariant live t L')
    (hq : live q) (hk : k < 2 ^ 20) (hout : ¬ (q = p ∧ a.Covers k)) : t.pageWord q k = s.pageWord q k := by
  by_cases hqp : q = p
  · subst hqp
    rw [hs.pageWord h.own hk, ht.pageWord h.own' hk, h.entry k fun hcov => hout ⟨rfl, hcov⟩]
  · obtain ⟨sq, hsq⟩ := hs.live q hq
    rw [hs.pageWord hsq hk, ht.pageWord ((h.others q hqp).trans hsq) hk]

/-- A page that a recorded allocation covers is a page of the heap. -/
theorem UserInvariant.covers_lt (h : UserInvariant live s L) (hsp : L.space p = some sp) (hi : sp.Holds i)
    (hk : (sp.allocation i).Covers k) : k < 2 ^ 20 ∧ heapBaseAddress / heapBlockSize ≤ k ∧
      k - heapBaseAddress / heapBlockSize < heapMaxHeapBlocksEntries := by
  obtain ⟨_, hlive, hroom⟩ := (h.recorded p sp hsp).owned i hi
  obtain ⟨halign, hbase, hend⟩ := h.accounts.placed.placed _ hlive
  unfold ProcessAllocation.Covers at hk
  simp only [heapBaseAddress, heapBlockSize, heapMaxHeapSize, heapMaxHeapBlocksEntries] at *
  omega

/-- The entry of a page of another live block is not among the block's. -/
theorem Ledger.Placed.not_entries {c : ProcessAllocation} (h : L.Placed) (ha : L.pages a.ptr = blocksOf a.size)
    (hlive : L.pages a.ptr ≠ 0) (hc : L.pages c.ptr ≠ 0) (hne : a.ptr ≠ c.ptr)
    (hroom : c.size ≤ L.pages c.ptr * heapBlockSize) (hk : c.Covers k) :
    ¬ a.entries.Holds (k - heapBaseAddress / heapBlockSize) := by
  have hapart := h.apart a.ptr c.ptr hlive hc hne
  obtain ⟨halign, hbase, hend⟩ := h.placed _ hlive
  obtain ⟨halign', hbase', hend'⟩ := h.placed _ hc
  rw [ha] at hapart hend
  intro hin
  unfold ProcessAllocation.Covers at hk
  unfold ProcessAllocation.entries blockEntries Extent.Holds at hin
  simp only [heapBaseAddress, heapBlockSize, heapMaxHeapSize] at *
  omega

theorem recordedAt_iff {c : ProcessAllocation} : RecordedAt live s q i c ↔
    live q ∧ i < basicOSMaxAllocationsAllowedPerProcess ∧ s.slot q i = some c ∧ c.ptr ≠ 0 := by
  have hslot : s.slot q i = some c ↔ ∃ P, s.process q = some P ∧ P.allocations i = c := by
    unfold Kernel.slot
    rw [Option.map_eq_some_iff]
  rw [hslot]
  exact ⟨fun h => ⟨h.live, h.slot, h.process, h.used⟩, fun h => ⟨h.1, h.2.1, h.2.2.1, h.2.2.2⟩⟩

/-- The slots differ in the one of that block. -/
theorem Ledger.OneMore.slot {j : Nat} (h : L.OneMore L' p i sp sp' a) (hs : UserInvariant live s L)
    (ht : UserInvariant live t L') (hq : live q) (hne : ¬ (q = p ∧ j = i)) : t.slot q j = s.slot q j := by
  by_cases hqp : q = p
  · subst hqp
    rw [hs.slot h.own, ht.slot h.own', h.slots j fun hji => hne ⟨rfl, hji⟩]
  · obtain ⟨sq, hsq⟩ := hs.live q hq
    rw [hs.slot hsq, ht.slot ((h.others q hqp).trans hsq)]

/-- Another allocation has the same slot, entries and words in both. -/
theorem Ledger.OneMore.same {j : Nat} {c : ProcessAllocation} (h : L.OneMore L' p i sp sp' a)
    (hs : UserInvariant live s L)
    (ht : UserInvariant live t L') (hi : sp'.Holds i) (ha : sp'.allocation i = a) (hsize : blocksOf a.size ≠ 0)
    (hne : ¬ (q = p ∧ j = i)) (hc : RecordedAt live t q j c) (hk : c.Covers k) :
    t.ram.heap.heap.table.entries (k - heapBaseAddress / heapBlockSize : Nat) =
      s.ram.heap.heap.table.entries (k - heapBaseAddress / heapBlockSize : Nat) ∧
      t.pageWord q k = s.pageWord q k := by
  obtain ⟨sq, hsq, hj, rfl⟩ := ht.holds hc
  have hp := ht.recorded p sp' h.own'
  have hq := ht.recorded q sq hsq
  have hptr : a.ptr ≠ (sq.allocation j).ptr := fun heq => by
    obtain ⟨rfl, rfl⟩ := hp.ptr_inj hq hi hj (by rw [ha, heq])
    exact hne ⟨rfl, rfl⟩
  have hself : L'.pages a.ptr = blocksOf a.size := by rw [h.pages, Function.update_self]
  have hlive : L'.pages a.ptr ≠ 0 := by rwa [hself]
  obtain ⟨_, hlive', hroom'⟩ := hq.owned j hj
  obtain ⟨hk', _, hin⟩ := ht.covers_lt hsq hj hk
  constructor
  · have hentries := h.entries hs ht hsize hin
    rwa [if_neg (ht.accounts.placed.not_entries hself hlive hlive' hptr hroom' hk)] at hentries
  · refine h.words hs ht hc.live hk' fun hin => ?_
    obtain ⟨_, _, hroom⟩ := hp.owned i hi
    rw [ha] at hroom
    exact ht.accounts.placed.covers_ne hlive' hlive hptr.symm hroom' hroom hk hin.2

/-- An allocation is a local change. -/
theorem Ledger.OneMore.localChange (h : L.OneMore L' p i sp sp' a) (hs : UserInvariant live s L)
    (ht : UserInvariant live t L') (hi : sp'.Holds i) (ha : sp'.allocation i = a) (hsize : blocksOf a.size ≠ 0) :
    (SlotsOnly s t p → LocalChange live s t p i a) ∧ (SlotsOnly t s p → LocalChange live t s p i a) := by
  have hslot : ∀ j, j ≠ i → t.slot p j = s.slot p j := fun j hji => by
    rw [hs.slot h.own, ht.slot h.own', h.slots j hji]
  have hentries : ∀ j : Nat, j < heapMaxHeapBlocksEntries → ¬ a.entries.Holds j →
      t.ram.heap.heap.table.entries j = s.ram.heap.heap.table.entries j := fun j hj hout => by
    have hentries := h.entries hs ht hsize hj
    rwa [if_neg hout] at hentries
  have hkept : ∀ q j c, ¬ (q = p ∧ j = i) → (RecordedAt live s q j c ↔ RecordedAt live t q j c) := by
    intro q j c hne
    rw [recordedAt_iff, recordedAt_iff]
    refine and_congr_right fun hq => ?_
    rw [h.slot hs ht hq hne]
  constructor
  · refine fun hslots => ⟨hslots, hslot, hentries, fun q k hq hk hout =>
      h.words hs ht hq hk hout, fun q j c hc hne => ?_⟩
    have hc' := (hkept q j c hne).mp hc
    exact ⟨hc', fun k hk => (h.same hs ht hi ha hsize hne hc' hk).1, fun k hk =>
      (h.same hs ht hi ha hsize hne hc' hk).2⟩
  · refine fun hslots => ⟨hslots, fun j hj => (hslot j hj).symm, fun j hj hout => (hentries j hj hout).symm,
      fun q k hq hk hout => (h.words hs ht hq hk hout).symm, fun q j c hc hne => ?_⟩
    exact ⟨(hkept q j c hne).mpr hc, fun k hk => (h.same hs ht hi ha hsize hne hc hk).1.symm,
      fun k hk => (h.same hs ht hi ha hsize hne hc hk).2.symm⟩

/-! ### The block while it is there, and after -/

/-- The entries of a block lie in the table. -/
theorem UserInvariant.entries_lt (h : UserInvariant live s L) (hlive : L.pages a.ptr ≠ 0)
    (hself : L.pages a.ptr = blocksOf a.size) {j : Nat} (hj : a.entries.Holds j) : j < heapMaxHeapBlocksEntries := by
  obtain ⟨_, hbase, hend⟩ := h.accounts.placed.placed _ hlive
  rw [hself] at hend
  unfold ProcessAllocation.entries blockEntries Extent.Holds at hj
  simp only [heapBaseAddress, heapBlockSize, heapMaxHeapSize, heapMaxHeapBlocksEntries] at *
  omega

theorem UserInvariant.holding (h : UserInvariant live s L) (hsp : L.space p = some sp) (hi : sp.Holds i)
    (hself : L.pages (sp.allocation i).ptr = blocksOf (sp.allocation i).size) : Holding s p i (sp.allocation i) := by
  have hrec := h.recorded p sp hsp
  have hlive := (hrec.owned i hi).2.1
  refine ⟨h.slot hsp i, fun j hj => ?_, fun k hk => ?_⟩
  · rw [h.pages] at hlive hself
    unfold ProcessAllocation.entries at *
    rw [← hself] at hj ⊢
    exact h.sound_heap.entry_held hlive hj
  · rw [h.pageWord hsp (h.covers_lt hsp hi hk).1, hrec.mapped i k hi hk]

/-- The slot and the entries before the allocation, and after the release. -/
theorem Ledger.OneMore.vacant (h : L.OneMore L' p i sp sp' a) (hs : UserInvariant live s L)
    (ht : UserInvariant live t L') (hempty : (sp.allocation i).ptr = 0)
    (hslot : i < basicOSMaxAllocationsAllowedPerProcess)
    (hsize : blocksOf a.size ≠ 0) : Vacant s p i a := by
  have hself : L'.pages a.ptr = blocksOf a.size := by rw [h.pages, Function.update_self]
  refine ⟨?_, fun j hj => ?_⟩
  · have hcell : sp.allocation i = ⟨(sp.allocation i).ptr, (sp.allocation i).size⟩ := rfl
    rw [hs.slot h.own, hcell, hempty, (hs.recorded p sp h.own).empty i hslot hempty]
  · have hentries := h.entries hs ht hsize (ht.entries_lt (by rwa [hself]) hself hj)
    rw [if_pos hj] at hentries
    exact hentries.1

/-! ### Between the two calls -/

/-- The ledger has the block in slot `i` of `p`. -/
structure Keeping (live : Nat → Prop) (p i : Nat) (a : ProcessAllocation) (s : Kernel HeapState) (L : Ledger)
  (sp : Space) :
    Prop where
  invariant : UserInvariant live s L
  space : L.space p = some sp
  holds : sp.Holds i
  allocation : sp.allocation i = a
  pages : L.pages a.ptr = blocksOf a.size

/-- Whatever programs allocate, and release but this, the block stays. -/
theorem Keeping.step {op : UserOp} (h : Keeping live p i a s L sp) (hok : UserGranted s op)
    (hother : op ≠ .free p a.ptr)
    (hstep : UserStep live s op t) : ∃ L' sp', Keeping live p i a t L' sp' := by
  have hself : L.pages a.ptr ≠ 0 := by
    rw [← h.allocation]
    exact ((h.invariant.recorded p sp h.space).owned i h.holds).2.1
  cases hstep with
  | @malloc q size ret t hq hmalloc =>
    obtain ⟨sq, hsq⟩ := h.invariant.live q hq
    obtain ⟨_, ⟨_, h'⟩ | ⟨j, n, _, hempty, _, hnew, _, h'⟩⟩ := (h.invariant.malloc hsq hok).returned hmalloc
    · exact ⟨L, sp, h', h.space, h.holds, h.allocation, h.pages⟩
    have hne : a.ptr ≠ ret := fun heq => hself (by rwa [heq])
    have hpages : (L.malloc q sq j ret size n).pages a.ptr = L.pages a.ptr := Function.update_of_ne hne ..
    by_cases hqp : p = q
    · subst hqp
      obtain rfl : sp = sq := Option.some_inj.mp (h.space.symm.trans hsq)
      have hij : i ≠ j := fun heq => h.holds.used (heq ▸ hempty)
      exact ⟨_, _, h', Function.update_self .., (Space.holds_update hij).mpr h.holds,
        (Function.update_of_ne hij ..).trans h.allocation, hpages.trans h.pages⟩
    · exact ⟨_, sp, h', (Function.update_of_ne hqp ..).trans h.space, h.holds, h.allocation, hpages.trans h.pages⟩
  | @free q ptr ret t hq hfree =>
    obtain ⟨sq, hsq⟩ := h.invariant.live q hq
    obtain ⟨_, _, hfree, hret⟩ := bind_ok.mp hfree
    cases hret
    obtain ⟨_, ⟨h', _⟩ | ⟨j, hj, hptr, h'⟩⟩ := (h.invariant.free hsq ptr).returned hfree
    · exact ⟨L, sp, h', h.space, h.holds, h.allocation, h.pages⟩
    -- it is another slot, so another pointer
    have hne : a.ptr ≠ (sq.allocation j).ptr := by
      intro heq
      rw [← h.allocation] at heq
      obtain ⟨rfl, rfl⟩ := (h.invariant.recorded p sp h.space).ptr_inj (h.invariant.recorded q sq hsq) h.holds hj heq
      exact hother (by rw [← hptr, ← heq, h.allocation])
    have hpages : (L.free q sq j).pages a.ptr = L.pages a.ptr := Function.update_of_ne hne ..
    by_cases hqp : p = q
    · subst hqp
      obtain rfl : sp = sq := Option.some_inj.mp (h.space.symm.trans hsq)
      have hij : i ≠ j := fun heq => hne (by rw [← heq, h.allocation])
      exact ⟨_, _, h', Function.update_self .., (Space.holds_update hij).mpr h.holds,
        (Function.update_of_ne hij ..).trans h.allocation, hpages.trans h.pages⟩
    · exact ⟨_, sp, h', (Function.update_of_ne hqp ..).trans h.space, h.holds, h.allocation, hpages.trans h.pages⟩

theorem Keeping.run {t : Kernel HeapState} (h : Keeping live p i a s L sp)
    (hrun : Run (UserStep live) (fun s op => UserGranted s op ∧ op ≠ .free p a.ptr) (· = s) t) :
    ∃ L' sp', Keeping live p i a t L' sp' := by
  refine hrun.invariant (I := fun t => ∃ L' sp', Keeping live p i a t L' sp') ?_ ?_
  · rintro _ rfl
    exact ⟨L, sp, h⟩
  · rintro s op t ⟨L, sp, h⟩ ⟨hok, hother⟩ hstep
    exact h.step hok hother hstep

theorem Keeping.holding (h : Keeping live p i a s L sp) : Holding s p i a := by
  have hpages := h.pages
  rw [← h.allocation] at hpages
  have hholding := h.invariant.holding h.space h.holds hpages
  rwa [h.allocation] at hholding

/-- Then the release finds it. -/
theorem Keeping.release (h : Keeping live p i a s L sp) : ∃ t, isrSysFree kheap p a.ptr s = .ok (0, t) ∧
    Vacant t p i a ∧ Absent t p a ∧ LocalChange live s t p i a := by
  obtain ⟨_, t, hfree, hslots, hcases⟩ := (h.invariant.free h.space a.ptr).returns
  have hrec := h.invariant.recorded p sp h.space
  obtain ⟨_, hnone, _⟩ | ⟨j, hj, hptr, h'⟩ := hcases
  · exact absurd (by rw [h.allocation]) (hnone i h.holds)
  obtain ⟨_, rfl⟩ := hrec.ptr_inj hrec h.holds hj (by rw [hptr, h.allocation])
  have hlive := (hrec.owned i h.holds).2.1
  have hpages := h.pages
  rw [← h.allocation] at hpages
  have hmore := Ledger.oneMore_free h.space hpages
  have hsize : blocksOf (sp.allocation i).size ≠ 0 := by rwa [← hpages]
  have hempty : ((sp.free i).allocation i).ptr = 0 := by
    simp [Space.free]
  refine ⟨t, ?_, ?_⟩
  · unfold isrSysFree
    rw [bind_apply, hfree]
    rfl
  rw [← h.allocation]
  refine ⟨hmore.vacant h' h.invariant hempty h.holds.slot hsize, fun k hk => ?_,
    (hmore.localChange h' h.invariant h.holds rfl hsize).2 hslots⟩
  have hk' := (h.invariant.covers_lt h.space h.holds hk).1
  refine ⟨_, h'.pageWord hmore.own hk', ?_⟩
  show mapSelf sp.entry 0 _ _ k % 2 = 0
  rw [mapSelf_covered hk]
  simp only [heapBlockSize]
  omega

/-! ### The two calls -/

/-- A state that the kernel reaches with these processes live: loading and ending them as it goes, or
with requests and releases of processes that have nothing allocated at first. -/
inductive Reached (live : Nat → Prop) (s : Kernel HeapState) : Prop where
  | lived (h : Lived kheapContract ⟨s, live⟩)
  | loaded {chunk D} (h : Run (UserStep live) UserGranted (Loaded live chunk D) s)

theorem Reached.invariant (h : Reached live s) : ∃ L, UserInvariant live s L := by
  cases h with
  | lived h =>
    obtain ⟨L, haccounted⟩ := Lives.accounted h
    exact ⟨L, haccounted.populated.accounts, haccounted.live, haccounted.populated.recorded⟩
  | loaded h => exact h.invariant (fun _ h => h.invariant) fun _ _ _ h hok hstep => userInvariant_step h hok hstep

/-- **A program's allocation and its release are inverse and local.** For every process with a free slot
and every size the heap has room for: `process_malloc` fills a slot, takes the entries of a block and maps its
pages, and nothing else; whatever is allocated and released after that, `process_free` empties the slot,
frees the entries and takes the pages out of the directory, and nothing else. A pointer that is not recorded
is not released. -/
theorem processMalloc_free_local : (∀ (live : Nat → Prop) (s₀ : Kernel HeapState) (p size : Nat), Reached live s₀ →
      live p → (∃ i, i < basicOSMaxAllocationsAllowedPerProcess ∧ ∃ a, s₀.slot p i = some a ∧ a.ptr = 0) →
      s₀.ram.heap.Grants size →
      ∃ i ret s₁, sysMalloc kheap p size s₀ = .ok (ret, s₁) ∧ ret ≠ 0 ∧
        Vacant s₀ p i ⟨ret, size⟩ ∧ LocalChange live s₀ s₁ p i ⟨ret, size⟩ ∧ Holding s₁ p i ⟨ret, size⟩ ∧
        ∀ s₂, Run (UserStep live) (fun s op => UserGranted s op ∧ op ≠ .free p ret) (· = s₁) s₂ →
          Holding s₂ p i ⟨ret, size⟩ ∧ ∃ s₃, isrSysFree kheap p ret s₂ = .ok (0, s₃) ∧
            Vacant s₃ p i ⟨ret, size⟩ ∧ Absent s₃ p ⟨ret, size⟩ ∧ LocalChange live s₂ s₃ p i ⟨ret, size⟩) ∧
    ∀ (s : Kernel HeapState) (p ptr : Nat), (∃ P, s.process p = some P) →
      (∀ i, i < basicOSMaxAllocationsAllowedPerProcess → ∀ a, s.slot p i = some a → a.ptr ≠ ptr) →
      isrSysFree kheap p ptr s = .ok (0, s) := by
  constructor
  · intro live s₀ p size hreached hp hfree hgrants
    obtain ⟨L, h⟩ := hreached.invariant
    obtain ⟨sp, hsp⟩ := h.live p hp
    have hnotFull : ¬ sp.Full := by
      obtain ⟨i, hi, a, ha, hnull⟩ := hfree
      rw [h.slot hsp] at ha
      obtain rfl := Option.some_inj.mp ha
      exact fun hfull => hfull i hi hnull
    have hsize : blocksOf size ≠ 0 := by
      have := blocksOf_pos hgrants.1 hgrants.2.1
      omega
    obtain ⟨ret, s₁, i, hmalloc, hslots, hi, hempty, hne, hnew, _, h₁⟩ := h.malloc_granted hsp hnotFull hgrants
    have hmore : L.OneMore _ p i sp (sp.malloc i ret size) ⟨ret, size⟩ := Ledger.oneMore_malloc hsp hnew
    have halloc : (sp.malloc i ret size).allocation i = ⟨ret, size⟩ := Function.update_self ..
    have hholds : (sp.malloc i ret size).Holds i := ⟨hi, by rwa [halloc]⟩
    have hself : (L.malloc p sp i ret size (blocksOf size)).pages ret = blocksOf size := Function.update_self ..
    have hkeeping : Keeping live p i ⟨ret, size⟩ s₁ _ _ := ⟨h₁, hmore.own', hholds, halloc, hself⟩
    refine ⟨i, ret, s₁, hmalloc, hne, hmore.vacant h h₁ hempty hi hsize,
      (hmore.localChange h h₁ hholds halloc hsize).1 hslots,
      hkeeping.holding, fun s₂ hrun => ?_⟩
    obtain ⟨L₂, sp₂, h₂⟩ := hkeeping.run hrun
    exact ⟨h₂.holding, h₂.release⟩
  · rintro s p ptr ⟨P, hP⟩ hnone
    have hslot : P.slotOf ptr = none := by
      unfold Process.slotOf
      refine List.find?_eq_none.mpr fun i hi => ?_
      have := hnone i (List.mem_range.mp hi) (P.allocations i) (by unfold Kernel.slot; rw [hP]; rfl)
      simpa using this
    have hload : loadProcess p s = .ok (P, s) := by
      unfold loadProcess
      rw [hP]
    unfold isrSysFree processFree
    rw [bind_apply, bind_apply, hload]
    simp only [hslot]
    rfl

/-- A page for the one process, which takes and gives back another before it releases it. -/
theorem processMalloc_free_local_nested : ∃ i ret s₁ ptr s₂ s₃ s₄,
    sysMalloc kheap 0x1000 heapBlockSize oneLoaded = .ok (ret, s₁) ∧
    sysMalloc kheap 0x1000 heapBlockSize s₁ = .ok (ptr, s₂) ∧ isrSysFree kheap 0x1000 ptr s₂ = .ok (0, s₃) ∧
    Holding s₃ 0x1000 i ⟨ret, heapBlockSize⟩ ∧ isrSysFree kheap 0x1000 ret s₃ = .ok (0, s₄) ∧
    Vacant s₄ 0x1000 i ⟨ret, heapBlockSize⟩ ∧ Absent s₄ 0x1000 ⟨ret, heapBlockSize⟩ := by
  obtain ⟨i, ret, s₁, hmalloc, _, _, _, _, hlocal⟩ := processMalloc_free_local.1 (· = 0x1000) oneLoaded 0x1000
    heapBlockSize (.loaded (.start loaded_oneLoaded)) rfl ⟨0, by decide, ⟨0, 0⟩, rfl, rfl⟩ grants_oneLoaded
  obtain ⟨_, _, ptr, s₂, hfirst, hgrants, hsecond, hne, L, sp, h, hsp⟩ := oneLoaded_twoPages
  obtain ⟨rfl, rfl⟩ := Prod.mk.inj (Except.ok.inj (hmalloc.symm.trans hfirst))
  obtain ⟨_, s₃, hfree, _⟩ := (h.free hsp ptr).returns
  have hrelease : isrSysFree kheap 0x1000 ptr s₂ = .ok (0, s₃) := bind_ok.mpr ⟨_, _, hfree, rfl⟩
  have hok₁ : UserGranted s₁ (.malloc 0x1000 heapBlockSize) ∧ UserOp.malloc 0x1000 heapBlockSize ≠ .free 0x1000 ret :=
    ⟨fun _ _ _ => hgrants, UserOp.noConfusion⟩
  have hok₂ : UserGranted s₂ (.free 0x1000 ptr) ∧ UserOp.free 0x1000 ptr ≠ .free 0x1000 ret :=
    ⟨trivial, fun heq => hne (UserOp.free.inj heq).2⟩
  obtain ⟨hholding, s₄, hlast, hvacant, habsent, _⟩ := hlocal s₃
    (.step (.step (.start rfl) hok₁ (.malloc rfl hsecond)) hok₂ (.free rfl hrelease))
  exact ⟨i, ret, s₁, ptr, s₂, s₃, s₄, hmalloc, hsecond, hrelease, hholding, hlast, hvacant, habsent⟩

end BasicOS

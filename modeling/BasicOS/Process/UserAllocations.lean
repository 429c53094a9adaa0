import BasicOS.Memory.KernelHeap
import BasicOS.Process.Accounts

/-! The memory that programs ask for, over whole runs.

A run starts with any number of processes, each with a directory of its own and nothing
allocated, and takes `sys_malloc` and `sys_free` in any order with any size and any pointer.
`AllocationsSound` is what is to hold in every state: recorded allocations of all processes
are apart, their pages are taken and mapped to themselves, and a release leaves the blocks of
the others alone.

The heap answers a request for no bytes without taking a block, so the next request gets the
same pointer (`allocations_unsound_on_zero`); requests it can grant (`UserGranted`) keep the
invariant, which is that the kernel accounts for a ledger whose allocations are recorded
(`allocations_sound_on_granted_runs`). -/
namespace BasicOS
open Lib Program HeapTable

/-! ### The system calls -/

/-- `sys_malloc`, with the size the program left on its stack. -/
def sysMalloc {H : Type} (A : Allocator H) (process size : Nat) : Program Stop (Kernel H) Nat :=
  processMalloc A process size

def isrSysFree {H : Type} (A : Allocator H) (process ptr : Nat) : Program Stop (Kernel H) Nat := do
  processFree A process ptr
  return 0

inductive UserOp where
  | malloc (process size : Nat)
  | free (process ptr : Nat)

/-- One system call of a live process that returns. -/
inductive UserStep (live : Nat → Prop) (s : Kernel HeapState) : UserOp → Kernel HeapState → Prop where
  | malloc {p size ret t} (hp : live p) (h : sysMalloc kheap p size s = .ok (ret, t)) : UserStep live s
    (.malloc p size) t
  | free {p ptr ret t} (hp : live p) (h : isrSysFree kheap p ptr s = .ok (ret, t)) : UserStep live s (.free p ptr) t

/-- A process with a slot left asks for a size the heap grants. -/
def UserGranted (s : Kernel HeapState) : UserOp → Prop
  | .malloc p size => ∀ P, s.process p = some P → P.slotOf 0 ≠ none → s.ram.heap.Grants size
  | .free _ _ => True

/-- The live processes, with nothing allocated yet and directories of their own. -/
structure Loaded (live : Nat → Prop) (chunk : Nat → Nat) (D : Nat → DirectoryBlocks) (s : Kernel HeapState) : Prop where
  heap : s.ram.heap.Sound
  process : ∀ p, live p → ∃ P T, s.process p = some P ∧ s.taskList.tasks P.task = some T ∧
    (∀ i, P.allocations i = ⟨0, 0⟩) ∧ T.pageDirectory = chunk p ∧ DirectoryLive kheapContract s.ram (D p) (chunk p)
  apart : ∀ p q b, live p → live q → b ∈ (D p).blocks (chunk p) → b ∈ (D q).blocks (chunk q) → p = q

/-! ### What is promised -/

/-- Slot `i` of the live process `p` records `a`. -/
structure RecordedAt (live : Nat → Prop) (s : Kernel HeapState) (p i : Nat) (a : ProcessAllocation) : Prop where
  live : live p
  slot : i < basicOSMaxAllocationsAllowedPerProcess
  process : ∃ P, s.process p = some P ∧ P.allocations i = a
  used : a.ptr ≠ 0

/-- Page `k` is a block of the heap, and taken. -/
def HeapState.TakenPage (s : HeapState) (k : Nat) : Prop :=
  ∃ i, k * heapBlockSize = s.heap.baseAddr + i * heapBlockSize ∧ i < s.heap.table.totalEntries ∧ ¬ s.heap.table.Free i

/-- Page `k` of the process is page `k` of memory: present, writable and user-accessible. -/
def MappedToItself (s : Kernel HeapState) (p k : Nat) : Prop :=
  ∃ P T, s.process p = some P ∧ s.taskList.tasks P.task = some T ∧
    pagingGet s.ram.mem (read32 s.ram.mem T.pageDirectory) (k * pagingPageSize) = k * pagingPageSize + rightsWritable

structure AllocationsSound (live : Nat → Prop) (s : Kernel HeapState) : Prop where
  distinct : ∀ p i a q j c, RecordedAt live s p i a → RecordedAt live s q j c → ¬ (p = q ∧ i = j) →
    a.ptr ≠ c.ptr ∧ ∀ k, a.Covers k → ¬ c.Covers k
  taken : ∀ p i a k, RecordedAt live s p i a → a.Covers k → s.ram.heap.TakenPage k
  mapped : ∀ p i a k, RecordedAt live s p i a → a.Covers k → MappedToItself s p k
  released : ∀ p i a q j c k t, RecordedAt live s p i a → processFree kheap p a.ptr s = .ok ((), t) →
    RecordedAt live s q j c → ¬ (p = q ∧ i = j) → c.Covers k → t.ram.heap.TakenPage k

/-! ### The invariant -/

/-- The kernel accounts for a ledger with the live processes, whose allocations are recorded. -/
structure UserInvariant (live : Nat → Prop) (s : Kernel HeapState) (L : Ledger) : Prop where
  accounts : Accounts kheapContract s L
  live : ∀ p, live p → ∃ sp, L.space p = some sp
  recorded : ∀ p sp, L.space p = some sp → L.Recorded p sp

variable {live : Nat → Prop} {chunk : Nat → Nat} {D : Nat → DirectoryBlocks} {s t : Kernel HeapState} {L : Ledger}
  {p q i k size ptr : Nat} {a : ProcessAllocation} {sp : Space}

/-- Memory that a process has not asked for is recorded nowhere. -/
theorem Loaded.invariant (h : Loaded live chunk D s) : ∃ L, UserInvariant live s L := by
  classical
  choose P T hprocess htask hempty hchunk hdirectory using h.process
  choose entry htables using fun p hp => (hdirectory p hp).tables
  let owner : Nat → Option Owner := fun b =>
    if hb : ∃ p, live p ∧ b ∈ (D p).blocks (chunk p) then some ⟨hb.choose, .paging⟩ else none
  have howner : ∀ p b, live p → b ∈ (D p).blocks (chunk p) → owner b = some ⟨p, .paging⟩ := by
    intro p b hp hb
    have hex : ∃ p, live p ∧ b ∈ (D p).blocks (chunk p) := ⟨p, hp, hb⟩
    simp only [owner, dif_pos hex]
    rw [h.apart _ p b hex.choose_spec.1 hp hex.choose_spec.2 hb]
  let space : Nat → Option Space := fun p => if hp : live p then some ⟨entry p hp, fun _ => ⟨0, 0⟩⟩ else none
  have hspace : ∀ p sp, space p = some sp → ∃ hp, sp = ⟨entry p hp, fun _ => ⟨0, 0⟩⟩ := by
    intro p sp hsp
    simp only [space] at hsp
    split at hsp
    · exact ⟨‹_›, (Option.some_inj.mp hsp).symm⟩
    · cases hsp
  refine ⟨⟨s.ram.heap.pages, owner, space⟩, ⟨h.heap, rfl, fun p sp hsp => ?_⟩, fun p hp =>
    ⟨_, dif_pos hp⟩, fun p sp hsp => ?_⟩
  · obtain ⟨hp, rfl⟩ := hspace p sp hsp
    have hdir := hdirectory p hp
    refine ⟨P p hp, T p hp, D p, hprocess p hp, htask p hp, funext (hempty p hp), ?_, htables p hp, fun b hb => ?_, ?_⟩
    · rw [hchunk p hp]
      exact hdir.chunkOf
    · rw [hchunk p hp] at hb
      exact ⟨hdir.live b hb, howner p b hp hb⟩
    · rw [hchunk p hp]
      exact hdir.nodup
  · obtain ⟨hp, rfl⟩ := hspace p sp hsp
    exact ⟨fun i hi => absurd rfl hi.used, fun i k hi => absurd rfl hi.used, fun i _ _ => rfl⟩

/-- A request the heap grants is answered as the allocator of the contract does. -/
theorem processMalloc_restrict (h : UserGranted s (.malloc p size)) :
    processMalloc (kheap.restrict HeapState.Grants) p size s = processMalloc kheap p size s := by
  unfold processMalloc
  rw [bind_apply, bind_apply]
  unfold loadProcess
  cases hP : s.process p with
  | none => rfl
  | some P =>
    simp only
    unfold processFindFreeAllocationSlot
    cases hslot : P.slotOf 0 with
    | none => rfl
    | some i =>
      have hgrants := h P hP (by rw [hslot]; exact Option.some_ne_none i)
      have hkzalloc : (onRam (kzalloc (kheap.restrict HeapState.Grants) size) : Program Stop (Kernel HeapState) Nat) s =
          onRam (kzalloc kheap size) s := by
        unfold onRam zoom kzalloc
        rw [bind_apply, bind_apply]
        unfold kmalloc
        rw [Allocator.restrict_of_ok hgrants]
      simp only
      rw [if_neg (by omega), if_neg (by omega), bind_apply, bind_apply, hkzalloc]
      rfl

/-- A release does not ask. -/
theorem processFree_restrict (p ptr : Nat) :
    processFree (kheap.restrict HeapState.Grants) p ptr = processFree kheap p ptr := by
  have hkfree : (kheap.restrict HeapState.Grants).kfree = kheap.kfree := rfl
  unfold processFree kfree
  rw [hkfree]

/-- An allocation keeps the invariant. -/
theorem UserInvariant.malloc (h : UserInvariant live s L) (hsp : L.space p = some sp)
    (hok : UserGranted s (.malloc p size)) :
    Ensures (sysMalloc kheap p size) (fun ret t => SlotsOnly s t p ∧ ((ret = 0 ∧ UserInvariant live t L) ∨
      ∃ i n, i < basicOSMaxAllocationsAllowedPerProcess ∧ (sp.allocation i).ptr = 0 ∧ ret ≠ 0 ∧ L.pages ret = 0 ∧
        n ≠ 0 ∧ UserInvariant live t (L.malloc p sp i ret size n))) s := by
  have hspec := processMalloc_spec h.accounts hsp size
  unfold wp at hspec
  rw [processMalloc_restrict hok] at hspec
  refine wp.mono hspec (fun ret t hmalloc => ?_) fun _ _ => trivial
  obtain ⟨hslots, _, ⟨hnull, haccounts, _⟩ | ⟨i, n, hi, hempty, hne, hfree, hn, hsize, _, haccounts⟩⟩ := hmalloc
  · exact ⟨hslots, .inl ⟨hnull, haccounts, h.live, h.recorded⟩⟩
  · refine ⟨hslots, .inr ⟨i, n, hi, hempty, hne, hfree, hn, haccounts, fun q hq => ?_, ?_⟩⟩
    · by_cases hqp : q = p
      · subst hqp
        exact ⟨_, Function.update_self ..⟩
      · obtain ⟨sq, hsq⟩ := h.live q hq
        exact ⟨sq, (Function.update_of_ne hqp ..).trans hsq⟩
    · refine Ledger.forall_space (P := fun L q sq => L.Recorded q sq) h.recorded rfl (fun q sq hqp _ hrec => ?_) ?_
      · exact hrec.keeps (Ledger.keeps_malloc hfree q)
      · rintro sp' ⟨⟩
        exact (h.recorded p sp hsp).malloc hne hfree hn hsize haccounts.placed

/-- A release keeps the invariant; it takes away the block of the pointer, if it is recorded. -/
theorem UserInvariant.free (h : UserInvariant live s L) (hsp : L.space p = some sp) (ptr : Nat) :
    wp (processFree kheap p ptr) (fun _ t => SlotsOnly s t p ∧
      ((UserInvariant live t L ∧ (∀ i, sp.Holds i → (sp.allocation i).ptr ≠ ptr) ∧ (ptr ≠ 0 → t = s)) ∨
      ∃ i, sp.Holds i ∧ (sp.allocation i).ptr = ptr ∧ UserInvariant live t (L.free p sp i))) (fun _ => False) s := by
  have hrec := h.recorded p sp hsp
  have hspec := processFree_spec h.accounts hsp hrec ptr
  rw [processFree_restrict] at hspec
  refine wp.mono hspec (fun _ t hfree => ?_) fun _ hfalse => hfalse
  obtain ⟨hslots, ⟨haccounts, hnone, hsame⟩ | ⟨i, hi, hptr, haccounts⟩⟩ := hfree
  · exact ⟨hslots, .inl ⟨⟨haccounts, h.live, h.recorded⟩, hnone, hsame⟩⟩
  · refine ⟨hslots, .inr ⟨i, hi, hptr, haccounts, fun q hq => ?_, ?_⟩⟩
    · by_cases hqp : q = p
      · subst hqp
        exact ⟨_, Function.update_self ..⟩
      · obtain ⟨sq, hsq⟩ := h.live q hq
        exact ⟨sq, (Function.update_of_ne hqp ..).trans hsq⟩
    · refine Ledger.forall_space (P := fun L q sq => L.Recorded q sq) h.recorded rfl (fun q sq hqp _ hrecq => ?_) ?_
      · exact hrecq.keeps (Ledger.keeps_free hrec hi hqp)
      · rintro sp' ⟨⟩
        exact hrec.free h.accounts.placed hi

theorem UserInvariant.sound_heap (h : UserInvariant live s L) : s.ram.heap.Sound := h.accounts.valid

theorem UserInvariant.pages (h : UserInvariant live s L) : L.pages = s.ram.heap.pages := h.accounts.pages

/-- A request that the heap grants, of a process with a free slot, is answered. -/
theorem UserInvariant.malloc_granted (h : UserInvariant live s L) (hsp : L.space p = some sp) (hfree : ¬ sp.Full)
    (hgrants : s.ram.heap.Grants size) : ∃ ret t i, sysMalloc kheap p size s = .ok (ret, t) ∧ SlotsOnly s t p ∧
      i < basicOSMaxAllocationsAllowedPerProcess ∧ (sp.allocation i).ptr = 0 ∧ ret ≠ 0 ∧ L.pages ret = 0 ∧
      t.ram.heap = s.ram.heap.step (.alloc size) ∧ UserInvariant live t (L.malloc p sp i ret size (blocksOf size)) := by
  have hok : UserGranted s (.malloc p size) := fun _ _ _ => hgrants
  have hanswer : (kheap.restrict HeapState.Grants).kmalloc size s.ram.heap =
      some ((heapAlloc s.ram.heap.heap size).1, s.ram.heap.step (.alloc size)) := Allocator.restrict_of_ok hgrants
  obtain ⟨hsound, hnew, hpos, hpages⟩ := h.sound_heap.alloc hgrants
  have hspec := processMalloc_spec h.accounts hsp size
  unfold wp at hspec
  rw [processMalloc_restrict hok] at hspec
  cases hrun : processMalloc kheap p size s with
  | error e =>
    rw [hrun] at hspec
    rw [hanswer] at hspec
    cases hspec
  | ok out =>
    obtain ⟨ret, t⟩ := out
    rw [hrun] at hspec
    have hsome : (heapAlloc s.ram.heap.heap size).1 ≠ 0 := by
      refine Contract.ne_null (C := kheapContract) (r := ⟨s.ram.heap.step (.alloc size), s.ram.mem⟩) hsound ?_
      show (s.ram.heap.step (.alloc size)).pages _ ≠ 0
      rw [hpages, Function.update_self]
      omega
    obtain ⟨_, _, ⟨hnull, _, hfull | hheap⟩ | ⟨_, _, _, _, hne, _, _, _, hheap, _⟩⟩ := hspec
    · exact absurd hfull hfree
    · rw [hanswer] at hheap
      exact absurd (Prod.mk.inj (Option.some_inj.mp hheap)).1 hsome
    rw [hanswer] at hheap
    obtain ⟨rfl, hstep⟩ := Prod.mk.inj (Option.some_inj.mp hheap)
    obtain ⟨hslots, ⟨hnull, _⟩ | ⟨i, n, hi, hempty, hne, hfresh, hn, h'⟩⟩ := (h.malloc hsp hok).returned hrun
    · exact absurd hnull hne
    have hsize : n = blocksOf size := by
      have hself := L.malloc_pages p sp i (heapAlloc s.ram.heap.heap size).1 size n
      rw [h'.pages, ← hstep, hpages, Function.update_self] at hself
      exact hself.symm
    subst hsize
    exact ⟨_, t, i, hrun, hslots, hi, hempty, hne, hfresh, hstep.symm, h'⟩

theorem userInvariant_step {op : UserOp} (h : ∃ L, UserInvariant live s L) (hok : UserGranted s op)
    (hstep : UserStep live s op t) : ∃ L, UserInvariant live t L := by
  obtain ⟨L, h⟩ := h
  cases hstep with
  | malloc hp hm =>
    obtain ⟨sp, hsp⟩ := h.live _ hp
    obtain ⟨_, ⟨_, h'⟩ | ⟨_, _, _, _, _, _, _, h'⟩⟩ := (h.malloc hsp hok).returned hm
    · exact ⟨_, h'⟩
    · exact ⟨_, h'⟩
  | free hp hf =>
    obtain ⟨sp, hsp⟩ := h.live _ hp
    obtain ⟨_, _, hf, hret⟩ := bind_ok.mp hf
    cases hret
    obtain ⟨_, ⟨h', _⟩ | ⟨_, _, _, h'⟩⟩ := (h.free hsp _).returned hf
    · exact ⟨_, h'⟩
    · exact ⟨_, h'⟩

/-! ### What the invariant says -/

/-- A recorded allocation is a slot of the ledger's space. -/
theorem UserInvariant.holds (h : UserInvariant live s L) (ha : RecordedAt live s p i a) :
    ∃ sp, L.space p = some sp ∧ sp.Holds i ∧ sp.allocation i = a := by
  obtain ⟨sp, hsp⟩ := h.live p ha.live
  obtain ⟨P, T, D, hheld⟩ := h.accounts.held p sp hsp
  obtain ⟨P', hP', halloc⟩ := ha.process
  obtain rfl : P = P' := Option.some_inj.mp (hheld.process.symm.trans hP')
  rw [hheld.allocation] at halloc
  exact ⟨sp, hsp, ⟨ha.slot, by rw [halloc]; exact ha.used⟩, halloc⟩

/-- The pages of a block are taken. -/
theorem Accounts.takenPage (h : Accounts kheapContract s L) (hlive : L.pages a.ptr ≠ 0)
    (hsize : a.size ≤ L.pages a.ptr * heapBlockSize) (hk : a.Covers k) : s.ram.heap.TakenPage k := by
  rw [h.pages] at hlive hsize
  have hsound : s.ram.heap.Sound := h.valid
  obtain ⟨c, hc, hptr, hpages⟩ := HeapState.pages_ne_zero hlive
  obtain ⟨b, hb, hext, _, _⟩ := hsound.extent hc
  rw [hptr] at hb
  have hpages' : kheapContract.live s.ram.heap a.ptr = blocksOf c.size := hpages
  rw [hpages'] at hsize
  unfold ProcessAllocation.Covers at hk
  have hmem : (c.extent s.ram.heap.heap.baseAddr).Holds (k - heapBaseAddress / heapBlockSize) := by
    rw [hext, Extent.holds_mk]
    simp only [heapBaseAddress, heapBlockSize] at *
    omega
  obtain ⟨hlt, hfree⟩ := hsound.taken hc hmem
  refine ⟨k - heapBaseAddress / heapBlockSize, ?_, by rwa [hsound.total], hfree⟩
  rw [hsound.base]
  simp only [heapBaseAddress, heapBlockSize] at *
  omega

theorem UserInvariant.takenPage (h : UserInvariant live s L) (hsp : L.space p = some sp) (hi : sp.Holds i)
    (hk : (sp.allocation i).Covers k) : s.ram.heap.TakenPage k :=
  h.accounts.takenPage ((h.recorded p sp hsp).owned i hi).2.1 ((h.recorded p sp hsp).owned i hi).2.2 hk

theorem UserInvariant.mapped (h : UserInvariant live s L) (hsp : L.space p = some sp) (hi : sp.Holds i)
    (hk : (sp.allocation i).Covers k) : MappedToItself s p k := by
  obtain ⟨P, T, D, hheld⟩ := h.accounts.held p sp hsp
  have hrec := h.recorded p sp hsp
  obtain ⟨_, hlive, hroom⟩ := hrec.owned i hi
  obtain ⟨_, _, hend⟩ := h.accounts.placed.placed _ hlive
  refine ⟨P, T, hheld.process, hheld.task, ?_⟩
  have hk' : k < 2 ^ 20 := by
    unfold ProcessAllocation.Covers at hk
    simp only [heapBaseAddress, heapBlockSize, heapMaxHeapSize] at *
    omega
  rw [hheld.chunkOf.directory, hheld.tables.get hk']
  exact hrec.mapped i k hi hk

theorem UserInvariant.sound (h : UserInvariant live s L) : AllocationsSound live s := by
  refine ⟨?_, ?_, ?_, ?_⟩
  · intro p i a q j c ha hc hne
    obtain ⟨sp, hsp, hi, rfl⟩ := h.holds ha
    obtain ⟨sq, hsq, hj, rfl⟩ := h.holds hc
    have hp := h.recorded p sp hsp
    have hq := h.recorded q sq hsq
    have hptr : (sp.allocation i).ptr ≠ (sq.allocation j).ptr := fun heq => hne (hp.ptr_inj hq hi hj heq)
    obtain ⟨_, hlive, hroom⟩ := hp.owned i hi
    obtain ⟨_, hlive', hroom'⟩ := hq.owned j hj
    exact ⟨hptr, fun k hk => h.accounts.placed.covers_ne hlive hlive' hptr hroom hroom' hk⟩
  · intro p i a k ha hk
    obtain ⟨sp, hsp, hi, rfl⟩ := h.holds ha
    exact h.takenPage hsp hi hk
  · intro p i a k ha hk
    obtain ⟨sp, hsp, hi, rfl⟩ := h.holds ha
    exact h.mapped hsp hi hk
  · intro p i a q j c k t ha hfree hc hne hk
    obtain ⟨sp, hsp, hi, rfl⟩ := h.holds ha
    obtain ⟨sq, hsq, hj, rfl⟩ := h.holds hc
    obtain ⟨_, ⟨h', _⟩ | ⟨i', hi', hptr, h'⟩⟩ := (h.free hsp _).returned hfree
    · exact h'.takenPage hsq hj hk
    · have hp := h.recorded p sp hsp
      obtain ⟨_, rfl⟩ := hp.ptr_inj hp hi' hi hptr
      -- another allocation keeps its slot and its block
      by_cases hqp : q = p
      · subst hqp
        obtain rfl : sp = sq := Option.some_inj.mp (hsp.symm.trans hsq)
        have hji : j ≠ i' := fun heq => hne ⟨rfl, heq.symm⟩
        have halloc : (sp.free i').allocation j = sp.allocation j := Function.update_of_ne hji ..
        refine h'.takenPage (Function.update_self ..) ((Space.holds_update hji).mpr hj) ?_
        rwa [halloc]
      · exact h'.takenPage ((Function.update_of_ne hqp ..).trans hsq) hj hk

/-- **In every run whose requests the heap grants the allocations are sound.** -/
theorem allocations_sound_on_granted_runs (live : Nat → Prop) (chunk : Nat → Nat) (D : Nat → DirectoryBlocks)
    {s : Kernel HeapState} (hrun : Run (UserStep live) UserGranted
    (Loaded live chunk D) s) : AllocationsSound live s := by
  obtain ⟨L, h⟩ := hrun.invariant (I := fun s => ∃ L, UserInvariant live s L) (fun _ h => h.invariant)
    fun _ _ _ h hok hstep => userInvariant_step h hok hstep
  exact h.sound

/-! ### One process -/

/-- The heap of `kheap_init` after `n` requests for a page. -/
def pagesTaken : Nat → HeapState
  | 0 => ⟨⟨⟨fun _ => 0, heapMaxHeapBlocksEntries, []⟩, heapBaseAddress⟩, []⟩
  | n + 1 => (pagesTaken n).step (.alloc heapBlockSize)

theorem pagesTaken_succ (n : Nat) : pagesTaken (n + 1) = (pagesTaken n).step (.alloc heapBlockSize) := rfl

def pageAt (k : Nat) : Nat := heapBaseAddress + k * heapBlockSize

/-- The heap gave out its first `n` blocks. -/
structure FirstPages (n : Nat) (s : HeapState) : Prop where
  sound : s.Sound
  live : ∀ a, a ∈ s.live ↔ ∃ k, k < n ∧ a = ⟨pageAt k, heapBlockSize⟩

theorem FirstPages.free_iff {n i : Nat} {s : HeapState} (h : FirstPages n s) (hi : i < heapMaxHeapBlocksEntries) :
    s.heap.table.Free i ↔ n ≤ i := by
  rw [h.sound.inv.reps.encodes.free_iff (by rwa [h.sound.total])]
  have hext : ∀ k, LiveAlloc.extent s.heap.baseAddr ⟨pageAt k, heapBlockSize⟩ = ⟨k, 1⟩ := by
    intro k
    have hblocks : blocksOf heapBlockSize = 1 := by decide
    rw [h.sound.base, ← hblocks]
    exact extent_of_ptr (a := ⟨pageAt k, heapBlockSize⟩) rfl
  constructor
  · intro hfree
    by_contra hlt
    refine hfree ⟨i, 1⟩ (List.mem_map.mpr ⟨_, (h.live _).mpr ⟨i, by omega, rfl⟩, hext i⟩) ?_
    rw [Extent.holds_mk]
    omega
  · intro hle e he
    obtain ⟨a, ha, rfl⟩ := List.mem_map.mp he
    obtain ⟨k, hk, rfl⟩ := (h.live a).mp ha
    rw [hext, Extent.holds_mk]
    omega

/-- The next block is free. -/
theorem FirstPages.runFree {n : Nat} {s : HeapState} (h : FirstPages n s) (hn : n < heapMaxHeapBlocksEntries) :
    s.heap.table.RunFree n 1 := by
  refine ⟨by rw [h.sound.total]; omega, fun i h1 h2 => ?_⟩
  exact (h.free_iff (by omega)).mpr h1

theorem FirstPages.grants {n : Nat} {s : HeapState} (h : FirstPages n s) (hn : n < heapMaxHeapBlocksEntries) :
    s.Grants heapBlockSize := by
  have hblocks : blocksOf heapBlockSize = 1 := by decide
  exact ⟨by decide, by decide, n, by rw [hblocks]; exact h.runFree hn⟩

theorem firstPages_pagesTaken {n : Nat} (hn : n ≤ heapMaxHeapBlocksEntries) : FirstPages n (pagesTaken n) := by
  induction n with
  | zero =>
    have hreps : HeapReps (pagesTaken 0).heap [] :=
      ⟨by decide, fun e he => (List.not_mem_nil he).elim, List.Pairwise.nil, fun i _ => rfl,
        fun j hj => (List.not_mem_nil hj).elim⟩
    have hnone : ∀ a, a ∉ (pagesTaken 0).live := fun a => List.not_mem_nil
    refine ⟨⟨⟨hreps, fun a ha => (hnone a ha).elim⟩, rfl, rfl, fun a ha => (hnone a ha).elim⟩, fun a => ?_⟩
    constructor
    · exact fun ha => (hnone a ha).elim
    · rintro ⟨k, hk, _⟩
      omega
  | succ n ih =>
    have h := ih (by omega)
    generalize hs : pagesTaken n = s at h
    have hblocks : blocksOf heapBlockSize = 1 := by decide
    have hrun := h.runFree hn
    have hfirst : s.heap.table.NoRunBefore 1 n := by
      intro r hr hrun
      have := (h.free_iff (by omega)).mp (hrun.2 r (Nat.le_refl r) (by omega))
      omega
    have halloc := heapAlloc_granted s.heap h.sound.inv.reps.total (by decide) (by decide) (hblocks.symm ▸ hrun)
      (hblocks.symm ▸ hfirst) (by
        rw [h.sound.base, hblocks]
        simp only [heapBaseAddress, heapBlockSize, heapMaxHeapBlocksEntries] at *
        omega)
    have hptr : (heapAlloc s.heap heapBlockSize).1 = pageAt n := by
      rw [halloc, h.sound.base]
      rfl
    unfold pagesTaken
    rw [hs]
    refine ⟨(h.sound.alloc (h.grants hn)).1, fun a => ?_⟩
    show a ∈ (⟨(heapAlloc s.heap heapBlockSize).1, heapBlockSize⟩ : LiveAlloc) :: s.live ↔ _
    rw [List.mem_cons, h.live, hptr]
    constructor
    · rintro (rfl | ⟨k, hk, rfl⟩)
      · exact ⟨n, Nat.lt_succ_self n, rfl⟩
      · exact ⟨k, Nat.lt_succ_of_lt hk, rfl⟩
    · rintro ⟨k, hk, rfl⟩
      by_cases hkn : k = n
      · exact .inl (by rw [hkn])
      · exact .inr ⟨k, by omega, rfl⟩

theorem isPage_pageAt {k : Nat} (hk : k < heapMaxHeapBlocksEntries) : IsPage (pageAt k) := by
  unfold IsPage pageAt
  simp only [heapBaseAddress, heapBlockSize, heapMaxHeapBlocksEntries, pagingPageSize] at *
  omega

theorem pageAt_inj {j k : Nat} (h : pageAt j = pageAt k) : j = k := by
  unfold pageAt at h
  simp only [heapBlockSize] at h
  omega

/-- The directory at the first block, its tables behind it. -/
def firstDirectory : DirectoryBlocks where
  directory := pageAt 0
  tables i := pageAt (i + 1)
  directory_page := isPage_pageAt (by decide)
  tables_page i hi := isPage_pageAt (by simp only [heapMaxHeapBlocksEntries]; omega)
  tables_ne i _ h := absurd (pageAt_inj h) (Nat.succ_ne_zero i)
  tables_inj i j _ _ h := Nat.succ_injective (pageAt_inj h)

attribute [local irreducible] pagesTaken generated

/-- The memory map behind the tables. -/
abbrev firstChunk : Nat := pageAt 1025

def firstProcess : Process := {zeroProcess with task := 0x2000}
def firstTask : Task := {zeroTask with pageDirectory := firstChunk}

/-- A process at 0x1000 with its task at 0x2000 and the identity as its directory. -/
def oneLoaded : Kernel HeapState where
  files := ⟨⟨pagesTaken 1026, write32 (generated firstDirectory.directory 5 firstDirectory.tables (fun _ => 0) 1024)
    firstChunk firstDirectory.directory⟩, fun _ => none⟩
  taskList := ⟨Function.update (fun _ => none) 0x2000 (some firstTask), 0, 0, 0⟩
  process := Function.update (fun _ => none) 0x1000 (some firstProcess)
  elfFile := fun _ => none
  processes := fun _ => 0
  currentProcess := 0

theorem process_oneLoaded : oneLoaded.process 0x1000 = some firstProcess := rfl

theorem task_oneLoaded : oneLoaded.taskList.tasks firstProcess.task = some firstTask := rfl

theorem directoryLive_oneLoaded : DirectoryLive kheapContract oneLoaded.ram firstDirectory firstChunk := by
  have hpages : FirstPages 1026 oneLoaded.ram.heap := firstPages_pagesTaken (by decide)
  have hlive : ∀ k, k < 1026 → kheapContract.pages oneLoaded.ram (pageAt k) ≠ 0 := by
    intro k hk
    show oneLoaded.ram.heap.pages (pageAt k) ≠ 0
    rw [hpages.sound.pages_eq (a := ⟨pageAt k, heapBlockSize⟩) ((hpages.live _).mpr ⟨k, hk, rfl⟩)]
    show blocksOf heapBlockSize ≠ 0
    decide
  have hapart : ∀ j k b, j ≠ k → Extent.Holds ⟨pageAt j, pagingPageSize⟩ b → b < pageAt k ∨ pageAt k + 4 ≤ b := by
    intro j k b hjk hb
    unfold pageAt at *
    simp only [Extent.holds_mk, heapBlockSize, pagingPageSize] at *
    omega
  have hsame : ∀ k b, k < 1025 → Extent.Holds ⟨pageAt k, pagingPageSize⟩ b →
      oneLoaded.ram.mem b = generated firstDirectory.directory 5 firstDirectory.tables (fun _ => 0) 1024 b := by
    exact fun k b hk hb => write32_apart _ _ (hapart k 1025 b (Nat.ne_of_lt hk) hb)
  refine ⟨⟨read32_write32 _ _ (by decide), ?_⟩, ⟨identityEntry 5, ?_⟩, ?_, ?_⟩
  · rintro b h1 h2 ⟨i, hi, hb⟩
    rcases hapart (i + 1) 1025 b (by omega) hb with hlt | hle
    · exact absurd h1 (Nat.not_le_of_lt hlt)
    · exact absurd h2 (Nat.not_lt_of_le hle)
  · refine (tables_generated (fun _ => 0) (by decide) (by decide)).congr (fun b hb => hsame 0 b (by decide) hb) ?_
    rintro b ⟨i, hi, hb⟩
    exact hsame (i + 1) b (by omega) hb
  · intro b hb
    rcases DirectoryBlocks.mem_blocks.mp hb with rfl | rfl | ⟨i, hi, rfl⟩
    · exact hlive 1025 (by decide)
    · exact hlive 0 (by decide)
    · exact hlive (i + 1) (by omega)
  · unfold DirectoryBlocks.blocks
    refine List.nodup_cons.mpr ⟨fun hmem => ?_, List.nodup_append.mpr ⟨?_, List.nodup_singleton _, ?_⟩⟩
    · rcases List.mem_append.mp hmem with hmem | hmem
      · obtain ⟨i, hi, heq⟩ := mem_tablesBelow.mp hmem
        have := pageAt_inj heq
        omega
      · exact absurd (pageAt_inj (List.mem_singleton.mp hmem)) (by decide)
    · unfold tablesBelow
      exact List.Nodup.map (fun i j h => Nat.succ_injective (pageAt_inj h)) List.nodup_range
    · intro b hb c hc heq
      obtain ⟨i, hi, rfl⟩ := mem_tablesBelow.mp hb
      rw [List.mem_singleton.mp hc] at heq
      exact absurd (pageAt_inj heq) (Nat.succ_ne_zero i)

theorem loaded_oneLoaded : Loaded (· = 0x1000) (fun _ => firstChunk) (fun _ => firstDirectory) oneLoaded := by
  refine ⟨(firstPages_pagesTaken (by decide)).sound, ?_, fun p q _ hp hq _ _ => hp.trans hq.symm⟩
  rintro p rfl
  exact ⟨firstProcess, firstTask, process_oneLoaded, task_oneLoaded, fun _ => rfl, rfl, directoryLive_oneLoaded⟩

/-- The kernel heap answers every request. -/
theorem wp_onRam_kzalloc (s : Kernel HeapState) (size : Nat) : wp (onRam (kzalloc kheap size))
    (fun ptr t => ∃ r, t = s.withRam r ∧
    ptr = (heapAlloc s.ram.heap.heap size).1 ∧ r.heap.heap = (heapAlloc s.ram.heap.heap size).2)
      (fun _ => False) s := by
  unfold onRam kzalloc
  rw [wp_zoom, wp_bind]
  refine (wp_ok (a := (heapAlloc s.ram.heap.heap size).1) (t := ⟨s.ram.heap.step (.alloc size), s.ram.mem⟩) rfl).mpr ?_
  split
  · rename_i hnull
    exact ⟨_, rfl, hnull.symm, rfl⟩
  · exact ⟨_, rfl, rfl, rfl⟩

/-- The first empty slot. -/
theorem slotOf_null {P : Process} (hi : (P.allocations i).ptr = 0) (hlt : i < basicOSMaxAllocationsAllowedPerProcess)
    (hbefore : ∀ j, j < i → (P.allocations j).ptr ≠ 0) : P.slotOf 0 = some i := by
  unfold Process.slotOf
  rw [List.find?_range_eq_some]
  exact ⟨by simpa using hi, List.mem_range.mpr hlt, fun j hj => by simpa using hbefore j hj⟩

/-- A request for no bytes takes no block, and its pointer goes into the first empty slot. -/
theorem sysMalloc_zero {P : Process} {T : Task} (hP : s.process p = some P) (hT : s.taskList.tasks P.task = some T)
    (hslot : P.slotOf 0 = some i) (halloc : heapAlloc s.ram.heap.heap 0 = (ptr, s.ram.heap.heap)) (hne : ptr ≠ 0)
    (hptr : ptr % pagingPageSize = 0) (hlt : ptr < 2 ^ 32) :
    wp (sysMalloc kheap p 0) (fun _ t => t.process = Function.update s.process p (some (P.putAllocation i ⟨ptr, 0⟩)) ∧
      t.taskList = s.taskList ∧ t.ram.heap.heap = s.ram.heap.heap) (fun _ => False) s := by
  unfold sysMalloc processMalloc processFindFreeAllocationSlot
  rw [wp_bind, wp_loadProcess hP, hslot]
  simp only
  rw [if_neg (by omega), wp_bind]
  refine wp.mono (wp_onRam_kzalloc s 0) ?_ fun _ h => h
  rintro _ t ⟨r, rfl, rfl, hheap⟩
  rw [halloc] at hheap ⊢
  have hT' : (s.withRam r).taskList.tasks P.task = some T := hT
  have halign : pagingAlignAddress (u32 (ptr + 0)) = ptr := by
    rw [Nat.add_zero, u32_of_lt hlt]
    exact if_neg (not_not.mpr hptr)
  -- the range has no page
  have hmap : ∀ mem, pagingMapTo mem T.pageDirectory ptr ptr ptr flagsWritable = (0, mem) := by
    intro mem
    unfold pagingMapTo
    rw [if_neg (by omega), Nat.sub_self]
    rfl
  simp only
  rw [if_neg hne, halign]
  unfold mapInTask onRam
  rw [wp_bind, wp_bind, wp_onTasks_loadTask hT', wp_zoom]
  refine (wp_ok rfl).mpr ?_
  rw [hmap, if_neg (Int.lt_irrefl 0), wp_bind]
  refine (wp_loadProcess (by exact hP)).mpr ?_
  rw [wp_bind]
  exact (wp_storeProcess (by exact hP)).mpr ⟨rfl, rfl, hheap⟩

theorem grants_oneLoaded : oneLoaded.ram.heap.Grants heapBlockSize := by
  have hpages : FirstPages 1026 oneLoaded.ram.heap := firstPages_pagesTaken (by decide)
  exact hpages.grants (by decide)

/-- The process gets two pages, one after the other. -/
theorem oneLoaded_twoPages : ∃ ptr s ptr' t, sysMalloc kheap 0x1000 heapBlockSize oneLoaded = .ok (ptr, s) ∧
    s.ram.heap.Grants heapBlockSize ∧ sysMalloc kheap 0x1000 heapBlockSize s = .ok (ptr', t) ∧ ptr' ≠ ptr ∧
    ∃ L sp, UserInvariant (· = 0x1000) t L ∧ L.space 0x1000 = some sp := by
  obtain ⟨L, h⟩ := loaded_oneLoaded.invariant
  obtain ⟨sp, hsp⟩ := h.live 0x1000 rfl
  have hempty : ∀ i, (sp.allocation i).ptr = 0 := by
    obtain ⟨P, _, _, hheld⟩ := h.accounts.held 0x1000 sp hsp
    obtain rfl : firstProcess = P := Option.some_inj.mp hheld.process
    exact fun i => congrArg ProcessAllocation.ptr (congrFun hheld.allocation i).symm
  obtain ⟨ptr, s, i, hfirst, _, _, _, _, _, hheap, h₁⟩ := h.malloc_granted hsp
    (fun hfull => hfull 0 (by decide) (hempty 0)) grants_oneLoaded
  have hgrants : s.ram.heap.Grants heapBlockSize := by
    have hpages : FirstPages 1027 (pagesTaken 1027) := firstPages_pagesTaken (by decide)
    rw [hheap]
    exact (pagesTaken_succ 1026 ▸ hpages).grants (by decide)
  have hnotFull : ¬ (sp.malloc i ptr heapBlockSize).Full := by
    intro hfull
    by_cases hi : i = 0
    · refine hfull 1 (by decide) ?_
      rw [show (sp.malloc i ptr heapBlockSize).allocation 1 = sp.allocation 1 from Function.update_of_ne (by omega) ..]
      exact hempty 1
    · refine hfull 0 (by decide) ?_
      rw [show (sp.malloc i ptr heapBlockSize).allocation 0 = sp.allocation 0 from Function.update_of_ne (by omega) ..]
      exact hempty 0
  obtain ⟨ptr', t, j, hsecond, _, _, _, _, hnew, _, h₂⟩ := h₁.malloc_granted (L.malloc_space ..) hnotFull hgrants
  refine ⟨ptr, s, ptr', t, hfirst, hgrants, hsecond, ?_, _, _, h₂, Ledger.malloc_space ..⟩
  rintro rfl
  exact absurd (hnew.symm.trans (L.malloc_pages ..)) (by decide)

/-- Two pages, and the first given back. -/
theorem allocations_sound_two_pages : ∃ ptr s₁ ptr' s₂ s₃, sysMalloc kheap 0x1000 heapBlockSize oneLoaded = .ok (ptr, s₁) ∧
    sysMalloc kheap 0x1000 heapBlockSize s₁ = .ok (ptr', s₂) ∧ isrSysFree kheap 0x1000 ptr s₂ = .ok (0, s₃) ∧
    AllocationsSound (· = 0x1000) s₃ := by
  obtain ⟨ptr, s₁, ptr', s₂, hfirst, hgrants, hsecond, _, L, sp, h, hsp⟩ := oneLoaded_twoPages
  obtain ⟨_, s₃, hfree, _⟩ := (h.free hsp ptr).returns
  have hrelease : isrSysFree kheap 0x1000 ptr s₂ = .ok (0, s₃) := bind_ok.mpr ⟨_, _, hfree, rfl⟩
  have hok : UserGranted oneLoaded (.malloc 0x1000 heapBlockSize) := fun _ _ _ => grants_oneLoaded
  have hok₁ : UserGranted s₁ (.malloc 0x1000 heapBlockSize) := fun _ _ _ => hgrants
  have hok₂ : UserGranted s₂ (.free 0x1000 ptr) := trivial
  have hrun : Run (UserStep (· = 0x1000)) UserGranted
      (Loaded (· = 0x1000) (fun _ => firstChunk) (fun _ => firstDirectory)) s₁ :=
    .step (.start loaded_oneLoaded) hok (.malloc rfl hfirst)
  have hrun₂ := hrun.step hok₁ (.malloc rfl hsecond)
  exact ⟨ptr, s₁, ptr', s₂, s₃, hfirst, hsecond, hrelease, allocations_sound_on_granted_runs (· = 0x1000)
    (fun _ => firstChunk) (fun _ => firstDirectory)
    (hrun₂.step hok₂ (.free rfl hrelease))⟩

attribute [local irreducible] sysMalloc

/-- **Two requests for no bytes get the same pointer**, and both slots record it. -/
theorem allocations_unsound_on_zero : ¬ ∀ (live : Nat → Prop) (chunk : Nat → Nat) (D : Nat → DirectoryBlocks)
    (s : Kernel HeapState), Run (UserStep live) (fun _ _ => True) (Loaded live chunk D) s →
    AllocationsSound live s := by
  intro h
  have hpages : FirstPages 1026 oneLoaded.ram.heap := firstPages_pagesTaken (by decide)
  obtain ⟨b, hb, halloc⟩ := heapAlloc_zero oneLoaded.ram.heap.heap hpages.sound.inv.reps.total
    (by rw [hpages.sound.total]; decide)
    (by rw [hpages.sound.total]; exact (hpages.free_iff (by decide)).mpr (by decide))
    (by rw [hpages.sound.total, hpages.sound.base]; decide)
  rw [hpages.sound.base] at halloc
  have hptr : heapBaseAddress + b * heapBlockSize ≠ 0 ∧ (heapBaseAddress + b * heapBlockSize) % pagingPageSize = 0 ∧
      heapBaseAddress + b * heapBlockSize < 2 ^ 32 := by
    rw [hpages.sound.total] at hb
    simp only [heapBaseAddress, heapBlockSize, heapMaxHeapBlocksEntries, pagingPageSize] at *
    omega
  generalize heapBaseAddress + b * heapBlockSize = ptr at halloc hptr
  obtain ⟨hne, halign, hlt⟩ := hptr
  have hslot₀ : firstProcess.slotOf 0 = some 0 := slotOf_null rfl (by decide) fun j hj => absurd hj (Nat.not_lt_zero j)
  have hslot₁ : (firstProcess.putAllocation 0 ⟨ptr, 0⟩).slotOf 0 = some 1 := by
    refine slotOf_null rfl (by decide) fun j hj => ?_
    obtain rfl : j = 0 := by omega
    exact hne
  obtain ⟨_, t, hfirst, hprocess, htasks, hheap⟩ :=
    (sysMalloc_zero process_oneLoaded task_oneLoaded hslot₀ halloc hne halign hlt).returns
  have hP : t.process 0x1000 = some (firstProcess.putAllocation 0 ⟨ptr, 0⟩) := by
    rw [hprocess, Function.update_self]
  have hT : t.taskList.tasks (firstProcess.putAllocation 0 ⟨ptr, 0⟩).task = some firstTask := by
    rw [htasks]
    exact task_oneLoaded
  rw [← hheap] at halloc
  obtain ⟨_, u, hsecond, hprocess', _, _⟩ := (sysMalloc_zero hP hT hslot₁ halloc hne halign hlt).returns
  have hP' : u.process 0x1000 = some ((firstProcess.putAllocation 0 ⟨ptr, 0⟩).putAllocation 1 ⟨ptr, 0⟩) := by
    rw [hprocess', Function.update_self]
  have hsound := h (· = 0x1000) (fun _ => firstChunk) (fun _ => firstDirectory) u
    (.step (.step (.start loaded_oneLoaded) trivial (.malloc rfl hfirst)) trivial (.malloc rfl hsecond))
  exact (hsound.distinct 0x1000 0 ⟨ptr, 0⟩ 0x1000 1 ⟨ptr, 0⟩ ⟨rfl, by decide, ⟨_, hP', rfl⟩, hne⟩
    ⟨rfl, by decide, ⟨_, hP', rfl⟩, hne⟩ (by decide)).1 rfl

end BasicOS

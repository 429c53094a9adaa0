import BasicOS.Process.Loading

/-! Loads that fail.

A load that fails should leave the process table, the tasks, the open files and the heap as
they were, and release only what it has taken. What it takes and what it releases is written
to a journal beside the heap (`Allocator.journaled`). The load does as promised when it fails
before there is anything its cleanup forgets: on a slot that is taken, if the variable for the new
process happens to be null; without a block for the process; and without one for the first
structure of the ELF loader, if no file is open under the descriptor that is closed then. In
every other failure a block stays behind or someone else's is released
(`processLoadForSlot_kept_iff`). -/
namespace BasicOS
open Lib Program

variable {H : Type} {A : Allocator H} {C : Contract A}

/-! ### Nothing has changed -/

/-- Focus, process table, task list and heap are the same. -/
structure Unchanged (C : Contract A) (s t : Kernel H) : Prop where
  current : t.currentProcess = s.currentProcess
  processes : t.processes = s.processes
  taskList : t.taskList = s.taskList
  heap : C.live t.ram.heap = C.live s.ram.heap

/-- What is open is a file, and its blocks are live. -/
def OpenFiles (C : Contract A) (f : Files H) : Prop := ∀ fd desc, f.fileGetFd fd = some desc →
  desc.priv.item.type = fatItemTypeFile ∧ (∀ b ∈ desc.blocks, C.pages f.ram b ≠ 0) ∧ desc.blocks.Nodup

variable {vol : Volume} {junk : Uninitialised} {filename : List UInt8} {s : Kernel H}

theorem Unchanged.refl (s : Kernel H) : Unchanged C s s := ⟨rfl, rfl, rfl, rfl⟩

/-- A request that is answered null leaves the blocks, any other adds one. -/
theorem kzalloc_live {r r' : Ram H} {size ptr : Nat} (hvalid : C.Valid r.heap) (h : kzalloc A size r = .ok (ptr, r')) :
    C.Valid r'.heap ∧ ((ptr = 0 ∧ C.live r'.heap = C.live r.heap) ∨
      (ptr ≠ 0 ∧ C.pages r ptr = 0 ∧ ∃ n, n ≠ 0 ∧ C.live r'.heap = Function.update (C.live r.heap) ptr n)) := by
  obtain ⟨hvalid', ⟨hnull, _, hlive⟩ | ⟨hne, hfree, _, n, hn, _, hlive⟩⟩ := (kzalloc_spec hvalid size).returned h
  · exact ⟨hvalid', .inl ⟨hnull, hlive⟩⟩
  · exact ⟨hvalid', .inr ⟨hne, hfree, n, hn, hlive⟩⟩

/-- Without memory for the first structure of the ELF loader it is the descriptor that decides. -/
theorem unstarted_unchanged_iff {process : Nat} {r : Ram H} {u : Kernel H} (hvalid : C.Valid s.ram.heap)
    (hopen : OpenFiles C s.files) (hne : process ≠ 0) (hprocess : kzalloc A sizeofProcess s.ram = .ok (process, r))
    (hu : Unstarted A junk.fd ((s.withRam r).putProcess process (some zeroProcess)) u) :
    Unchanged C s ((u.withRam (released A process u.ram)).putProcess process none) ↔
      s.files.fileGetFd junk.fd = none := by
  obtain ⟨hvalid₁, ⟨hnull, _⟩ | ⟨_, hfree, n, hn, hlive₁⟩⟩ := kzalloc_live hvalid hprocess
  · exact absurd hnull hne
  obtain ⟨r', res, files, hrefused, hclose, rfl⟩ := hu
  obtain ⟨hvalid₂, ⟨_, hlive₂⟩ | ⟨hne', _⟩⟩ := kzalloc_live (C := C) (r := r) hvalid₁ hrefused
  swap
  · exact absurd rfl hne'
  have hself : C.live r'.heap process ≠ 0 := by rw [hlive₂, hlive₁, Function.update_self]; exact hn
  have hfreed : Function.update (C.live r'.heap) process 0 = C.live s.ram.heap := by
    rw [hlive₂, hlive₁, Function.update_idem, ← show C.live s.ram.heap process = 0 from hfree, Function.update_eq_self]
  have hget : ∀ fd, (⟨r', s.files.fileDescriptors⟩ : Files H).fileGetFd fd = s.files.fileGetFd fd := fun _ => rfl
  have hclose' : fclose A junk.fd ⟨r', s.files.fileDescriptors⟩ = .ok (res, files) := hclose
  cases hfd : s.files.fileGetFd junk.fd with
  | none =>
    rw [fclose_closed ((hget _).trans hfd)] at hclose'
    obtain ⟨_, rfl⟩ := Prod.mk.inj (Except.ok.inj hclose')
    refine ⟨fun _ => rfl, fun _ => ⟨rfl, rfl, rfl, ?_⟩⟩
    show C.live (A.kfree process r'.heap) = _
    rw [(C.free hvalid₂ hself).2, hfreed]
  | some desc =>
    refine ⟨fun hsame => ?_, fun hnone => by cases hnone⟩
    exfalso
    obtain ⟨htype, hblocks, hnodup⟩ := hopen _ _ hfd
    have hblock : ∀ b ∈ desc.blocks, b ≠ process ∧ C.live r'.heap b ≠ 0 := by
      intro b hb
      have hlive := hblocks b hb
      have hbp : b ≠ process := fun heq => hlive (heq ▸ hfree)
      refine ⟨hbp, ?_⟩
      rw [hlive₂, hlive₁, Function.update_of_ne hbp]
      exact hlive
    obtain ⟨_, hfreed'⟩ := (fclose_freed (s := ⟨r', s.files.fileDescriptors⟩) ((hget _).trans hfd) htype hvalid₂
      (fun b hb => (hblock b hb).2) hnodup).returned hclose'
    -- the block of the descriptor is gone
    have haddr : desc.addr ∈ desc.blocks := List.mem_cons_self ..
    have hprocessLive : C.live files.ram.heap process ≠ 0 := by
      rw [show C.live files.ram.heap process = C.live r'.heap process from
        hfreed'.kept process fun hmem => (hblock process hmem).1 rfl]
      exact hself
    have hheap : C.live (A.kfree process files.ram.heap) = C.live s.ram.heap := hsame.heap
    have hgone := congrFun hheap desc.addr
    rw [(C.free hfreed'.valid hprocessLive).2, Function.update_of_ne (hblock _ haddr).1] at hgone
    exact hblocks _ haddr (hgone.symm.trans (hfreed'.gone _ haddr))

/-! ### What a call takes and releases -/

/-- Every answer to a request, and every pointer released. -/
structure Journal where
  taken : List Nat
  freed : List Nat

/-- The allocator with a journal beside its state. -/
def Allocator.journaled (A : Allocator H) : Allocator (H × Journal) where
  kmalloc size h := (A.kmalloc size h.1).map fun a => (a.1, (a.2, ⟨a.1 :: h.2.taken, h.2.freed⟩))
  kfree p h := (A.kfree p h.1, ⟨h.2.taken, p :: h.2.freed⟩)

def Contract.journaled (C : Contract A) : Contract A.journaled where
  Valid h := C.Valid h.1
  live h := C.live h.1
  placed := C.placed
  apart := C.apart
  malloc := by
    intro h size ptr h' hvalid hanswer
    obtain ⟨a, ha, heq⟩ := Option.map_eq_some_iff.mp hanswer
    obtain ⟨rfl, rfl⟩ := Prod.mk.inj heq
    exact C.malloc hvalid ha
  free := C.free
  free_null := C.free_null

/-- Memory with a journal. -/
def Ram.journaled (r : Ram H) (j : Journal) : Ram (H × Journal) := ⟨(r.heap, j), r.mem⟩

/-- The kernel when a call begins whose requests and releases are written down. -/
def Kernel.watched (s : Kernel H) : Kernel (H × Journal) where
  files := ⟨s.ram.journaled ⟨[], []⟩, s.files.fileDescriptors⟩
  taskList := s.taskList
  process := s.process
  elfFile := s.elfFile
  processes := s.processes
  currentProcess := s.currentProcess

/-- Process table, task list, descriptors and heap are as before, and what was released had been taken. -/
structure AllKept (C : Contract A) (s : Kernel H) (t : Kernel (H × Journal)) : Prop where
  processes : t.processes = s.processes
  taskList : t.taskList = s.taskList
  descriptors : t.files.fileDescriptors = s.files.fileDescriptors
  heap : C.live t.ram.heap.1 = C.live s.ram.heap
  freed : ∀ p ∈ t.ram.heap.2.freed, p ∈ t.ram.heap.2.taken

/-- The load of a slot is turned away before there is anything that its cleanup forgets. -/
inductive TurnedAway (A : Allocator H) (junk : Uninitialised) (slot : Int) (s : Kernel H) : Prop where
  | slotTaken (h : s.getProcess slot ≠ 0) (hjunk : junk.process = 0)
  | noProcess (h : s.getProcess slot = 0) (hrefused : Refused A sizeofProcess s.ram)
  | noElfFile {process r} (h : s.getProcess slot = 0) (hne : process ≠ 0)
      (hprocess : kzalloc A sizeofProcess s.ram = .ok (process, r)) (hrefused : Refused A sizeofElfFile r)
      (hclosed : s.files.fileGetFd junk.fd = none)

theorem kzalloc_journaled (r : Ram H) (j : Journal) (size : Nat) : kzalloc A.journaled size (r.journaled j) =
    match kzalloc A size r with
    | .ok (ptr, r') => .ok (ptr, r'.journaled ⟨ptr :: j.taken, j.freed⟩)
    | .error e => .error e := by
  have hanswer : A.journaled.kmalloc size (r.journaled j).heap =
      (A.kmalloc size r.heap).map fun a => (a.1, (a.2, ⟨a.1 :: j.taken, j.freed⟩)) := rfl
  unfold kzalloc
  rw [bind_apply, bind_apply]
  unfold kmalloc
  rw [hanswer]
  cases A.kmalloc size r.heap with
  | none => rfl
  | some a =>
    obtain ⟨ptr, heap⟩ := a
    simp only [Option.map_some]
    by_cases hnull : ptr = 0
    · rw [if_pos hnull, if_pos hnull, hnull]
      rfl
    · rw [if_neg hnull, if_neg hnull]
      rfl

/-- Both allocators answer alike. -/
theorem kzalloc_journaled_iff {r : Ram H} {j : Journal} {size ptr : Nat} {r₁ : Ram (H × Journal)} :
    kzalloc A.journaled size (r.journaled j) = .ok (ptr, r₁) ↔
      ∃ r', kzalloc A size r = .ok (ptr, r') ∧ r₁ = r'.journaled ⟨ptr :: j.taken, j.freed⟩ := by
  rw [kzalloc_journaled]
  cases kzalloc A size r with
  | error e => simp
  | ok a =>
    obtain ⟨p, r'⟩ := a
    simp only [Except.ok.injEq, Prod.mk.injEq]
    constructor
    · rintro ⟨rfl, rfl⟩
      exact ⟨r', ⟨rfl, rfl⟩, rfl⟩
    · rintro ⟨_, ⟨rfl, rfl⟩, rfl⟩
      exact ⟨rfl, rfl⟩

theorem refused_journaled_iff {r : Ram H} {j : Journal} {size : Nat} :
    Refused A.journaled size (r.journaled j) ↔ Refused A size r := by
  unfold Refused
  constructor
  · rintro ⟨r₁, hr₁⟩
    obtain ⟨r', hr', _⟩ := kzalloc_journaled_iff.mp hr₁
    exact ⟨r', hr'⟩
  · rintro ⟨r', hr'⟩
    exact ⟨_, kzalloc_journaled_iff.mpr ⟨r', hr', rfl⟩⟩

theorem openFiles_watched (h : OpenFiles C s.files) : OpenFiles C.journaled s.watched.files := h

/-! ### A cleanup takes nothing -/

/-- Releasing a block takes none. -/
theorem kfree_takes_nothing (p : Nat) : Preserves (kfree A.journaled p) fun r => r.heap.2.taken = [] :=
  preserves_modify fun _ h => h

theorem freeTables_takes_nothing (page n : Nat) :
    Preserves (freeTables A.journaled page n) fun r => r.heap.2.taken = [] := by
  induction n with
  | zero => exact preserves_pure _
  | succ n ih =>
    unfold freeTables load32
    refine ih.bind fun _ => ?_
    refine (preserves_get.bind fun _ => preserves_pure _).bind fun dEntry => ?_
    exact (preserves_get.bind fun _ => preserves_pure _).bind fun entry => kfree_takes_nothing _

attribute [local irreducible] freeTables in
theorem pagingFree4gb_takes_nothing (page : Nat) :
    Preserves (pagingFree4gb A.journaled page) fun r => r.heap.2.taken = [] := by
  unfold pagingFree4gb load32
  refine (freeTables_takes_nothing page _).bind fun _ => ?_
  refine (preserves_get.bind fun _ => preserves_pure _).bind fun chunk => ?_
  exact (kfree_takes_nothing chunk).bind fun _ => kfree_takes_nothing page

/-- The journal of the kernel has no answer. -/
def NothingTaken (s : Kernel (H × Journal)) : Prop := s.ram.heap.2.taken = []

theorem preserves_onRam_taken {B : Type} {x : Program Stop (Ram (H × Journal)) B}
    (h : Preserves x fun r => r.heap.2.taken = []) : Preserves (onRam x) NothingTaken := by
  intro s hs
  refine (Ensures.onRam (h s.ram hs)).mono fun _ t ht => ?_
  obtain ⟨ram, rfl, hram⟩ := ht
  exact hram

theorem preserves_onTasks_taken {B : Type} (x : Program Stop TaskList B) :
    Preserves (onTasks x : Program Stop (Kernel (H × Journal)) B) NothingTaken := by
  intro s hs
  refine (Ensures.onTasks (Q := fun _ _ => True) ?_).mono fun _ t ht => ?_
  · unfold Ensures wp
    split <;> trivial
  · obtain ⟨tasks, rfl, _⟩ := ht
    exact hs

attribute [local irreducible] pagingFree4gb in
theorem freeTask_takes_nothing (task : Nat) : Preserves (freeTask A.journaled task) NothingTaken := by
  unfold freeTask
  refine (preserves_onTasks_taken _).bind fun t => ?_
  refine (preserves_onRam_taken (pagingFree4gb_takes_nothing _)).bind fun _ => ?_
  refine (preserves_onTasks_taken _).bind fun _ => ?_
  exact preserves_onRam_taken (kfree_takes_nothing _)

/-- What the cleanup of a process that was not taken releases. -/
theorem loadCleanup_releases {process : Nat} {s t : Kernel (H × Journal)} (hne : process ≠ 0) (hs : NothingTaken s)
    (hrun : loadCleanup A.journaled process s = .ok ((), t)) : NothingTaken t ∧ process ∈ t.ram.heap.2.freed := by
  unfold loadCleanup at hrun
  rw [when_true hne] at hrun
  obtain ⟨P, s₁, hP, hrun⟩ := bind_ok.mp hrun
  obtain ⟨_, s₂, htask, hrun⟩ := bind_ok.mp hrun
  obtain ⟨_, s₃, hstack, hrun⟩ := bind_ok.mp hrun
  obtain ⟨_, s₄, hptr, hrun⟩ := bind_ok.mp hrun
  obtain ⟨_, s₅, hself, hrun⟩ := bind_ok.mp hrun
  have h₁ : NothingTaken s₁ := by
    unfold loadProcess at hP
    split at hP
    · obtain ⟨_, rfl⟩ := Prod.mk.inj (Except.ok.inj hP)
      exact hs
    · cases hP
  have h₂ : NothingTaken s₂ := ((freeTask_takes_nothing _).when s₁ h₁).returned htask
  have h₃ : NothingTaken s₃ := ((preserves_onRam_taken (kfree_takes_nothing _)).when s₂ h₂).returned hstack
  have h₄ : NothingTaken s₄ := by
    refine (Preserves.when ?_ s₃ h₃).returned hptr
    exact (preserves_onRam_taken (kfree_takes_nothing _)).bind fun _ => preserves_modify fun _ h => h
  cases hself
  cases hrun
  exact ⟨h₄, List.mem_cons_self ..⟩

/-! ### Which failures change nothing -/

variable {slot : Int} {out : Int × Option Nat} {t : Kernel (H × Journal)}

theorem allKept_watched (C : Contract A) (s : Kernel H) : AllKept C s s.watched :=
  ⟨rfl, rfl, rfl, rfl, fun _ hp => absurd hp List.not_mem_nil⟩

/-- On a slot that is taken it is the variable for the new process that decides. -/
theorem slotTaken_kept_iff (hslot : s.getProcess slot ≠ 0)
    (hrun : processLoadForSlot A.journaled vol junk filename slot s.watched = .ok (out, t)) :
    AllKept C s t ↔ junk.process = 0 := by
  have hslot' : s.watched.getProcess slot ≠ 0 := hslot
  unfold processLoadForSlot at hrun
  rw [bind_apply, get_apply] at hrun
  simp only [if_pos hslot'] at hrun
  obtain ⟨_, u, hcleanup, hend⟩ := bind_ok.mp hrun
  cases hend
  by_cases hjunk : junk.process = 0
  · unfold loadCleanup at hcleanup
    rw [when_false (not_not_intro hjunk)] at hcleanup
    cases hcleanup
    exact iff_of_true (allKept_watched C s) hjunk
  · have hstart : NothingTaken s.watched := rfl
    obtain ⟨hnothing, hfreed⟩ := loadCleanup_releases hjunk hstart hcleanup
    refine iff_of_false (fun hkept => ?_) hjunk
    have htaken := hkept.freed _ hfreed
    rw [show t.ram.heap.2.taken = [] from hnothing] at htaken
    exact List.not_mem_nil htaken

/-- A load with a block for the process and one for the first structure is not turned away. -/
theorem not_turnedAway {process : Nat} {r : Ram H} (hfree : s.getProcess slot = 0) (hne : process ≠ 0)
    (hprocess : kzalloc A sizeofProcess s.ram = .ok (process, r)) (hstarted : ¬ Refused A sizeofElfFile r) :
    ¬ TurnedAway A junk slot s := by
  intro h
  cases h with
  | slotTaken h _ => exact h hfree
  | noProcess _ h =>
    obtain ⟨r', hr'⟩ := h
    rw [hprocess] at hr'
    exact hne (Prod.mk.inj (Except.ok.inj hr')).1
  | noElfFile _ _ hprocess' h _ =>
    rw [hprocess] at hprocess'
    obtain ⟨_, rfl⟩ := Prod.mk.inj (Except.ok.inj hprocess')
    exact hstarted h

/-- Without memory for the first structure it is the descriptor that decides. -/
theorem unstarted_kept_iff {process : Nat} {r : Ram (H × Journal)} {u : Kernel (H × Journal)}
    (hvalid : C.Valid s.ram.heap) (hopen : OpenFiles C s.files) (hne : process ≠ 0)
    (hprocess : kzalloc A.journaled sizeofProcess s.watched.ram = .ok (process, r))
    (hu : Unstarted A.journaled junk.fd ((s.watched.withRam r).putProcess process (some zeroProcess)) u) :
    AllKept C s ((u.withRam (released A.journaled process u.ram)).putProcess process none) ↔
      s.files.fileGetFd junk.fd = none := by
  have hvalid' : C.journaled.Valid s.watched.ram.heap := hvalid
  have hiff := unstarted_unchanged_iff hvalid' (openFiles_watched hopen) hne hprocess hu
  obtain ⟨r', res, files, hrefused, hclose, rfl⟩ := hu
  obtain ⟨r₁, hr₁, rfl⟩ := kzalloc_journaled_iff.mp hprocess
  obtain ⟨r₂, hr₂, rfl⟩ := kzalloc_journaled_iff.mp hrefused
  refine ⟨fun hkept => hiff.mp ⟨rfl, hkept.processes, hkept.taskList, hkept.heap⟩, fun hclosed => ?_⟩
  have hsame := hiff.mpr hclosed
  have hclose' := (fclose_closed (A := A.journaled) (show Files.fileGetFd ⟨_, s.files.fileDescriptors⟩ junk.fd = none
    from hclosed)).symm.trans hclose
  obtain ⟨_, rfl⟩ := Prod.mk.inj (Except.ok.inj hclose')
  refine ⟨rfl, rfl, rfl, hsame.heap, fun p hp => ?_⟩
  have hself : p = process := List.mem_singleton.mp hp
  rw [hself]
  exact List.mem_cons_of_mem 0 (List.mem_singleton_self process)

/-- On a free slot: nothing has changed after a failure just when the load was turned away. -/
theorem freeSlot_kept_iff (hvalid : C.Valid s.ram.heap) (hopen : OpenFiles C s.files) (hfree : s.getProcess slot = 0)
    (hrun : processLoadForSlot A.journaled vol junk filename slot s.watched = .ok (out, t)) (hneg : out.1 < 0) :
    AllKept C s t ↔ TurnedAway A junk slot s := by
  have hvalid' : C.journaled.Valid s.watched.ram.heap := hvalid
  have hfree' : s.watched.getProcess slot = 0 := hfree
  have houtcome := (processLoadForSlot_outcome junk slot hvalid' hfree').returned hrun
  cases houtcome with
  | @noProcess r hprocess =>
    obtain ⟨r', hr', rfl⟩ := kzalloc_journaled_iff.mp hprocess
    refine iff_of_true ⟨rfl, rfl, rfl, ?_, fun p hp => absurd hp List.not_mem_nil⟩ (.noProcess hfree ⟨r', hr'⟩)
    obtain ⟨_, ⟨_, hlive⟩ | ⟨hne, _⟩⟩ := kzalloc_live hvalid hr'
    · exact hlive
    · exact absurd rfl hne
  | @unstarted process r u hne hprocess hunstarted =>
    obtain ⟨r₁, hr₁, heq⟩ := kzalloc_journaled_iff.mp hprocess
    rw [unstarted_kept_iff hvalid hopen hne hprocess hunstarted]
    constructor
    · intro hclosed
      obtain ⟨r', _, _, hrefused, _⟩ := hunstarted
      rw [heq] at hrefused
      exact .noElfFile hfree hne hr₁ (refused_journaled_iff.mp ⟨r', hrefused⟩) hclosed
    · intro h
      cases h with
      | slotTaken h _ => exact absurd hfree h
      | noProcess _ h =>
        obtain ⟨r', hr'⟩ := h
        rw [hr₁] at hr'
        exact absurd (Prod.mk.inj (Except.ok.inj hr')).1 hne
      | noElfFile _ _ _ _ hclosed => exact hclosed
  | @failed process r res t other hne hprocess hstarted _ _ _ htaken =>
    obtain ⟨r₁, hr₁, rfl⟩ := kzalloc_journaled_iff.mp hprocess
    refine iff_of_false (fun hkept => ?_) (not_turnedAway hfree hne hr₁ (mt refused_journaled_iff.mpr hstarted))
    -- the block that stays behind
    obtain ⟨hnew, hlive⟩ := htaken.fresh other (List.mem_singleton_self _)
    exact hlive ((congrFun hkept.heap other).trans hnew)
  | loaded => exact absurd hneg (lt_irrefl 0)

/-! ### A load that is turned away returns -/

/-- Without memory for the first structure, and nothing open that would be closed. -/
theorem loadInto_refused {fd : Int} {process : Nat} {r : Ram H} (hrefused : kzalloc A sizeofElfFile s.ram = .ok (0, r))
    (hclosed : s.files.fileGetFd fd = none) :
    loadInto A vol fd filename slot process s = .ok ((-enomem, false), s.withRam r) := by
  have hnew : onRam (kzalloc A sizeofElfFile) s = .ok (0, s.withRam r) := zoom_ok.mpr ⟨0, r, hrefused, rfl⟩
  have hclose : onFiles (fclose A fd) (s.withRam r) = .ok (-eio, s.withRam r) :=
    zoom_ok.mpr ⟨-eio, _, fclose_closed hclosed, rfl⟩
  have helf : elfLoad A vol fd filename s = .ok ((-enomem, 0), s.withRam r) := by
    unfold elfLoad
    rw [bind_apply, hnew]
    simp only [if_pos]
    rw [bind_apply, hclose]
    rfl
  have hneg : -enomem < 0 := by decide
  have hformat : ¬ -enomem = -einvformat := by decide
  have hprocess : processLoadElf A vol fd filename process s = .ok (-enomem, s.withRam r) := by
    unfold processLoadElf
    rw [bind_apply, helf]
    simp only [if_pos hneg]
    rfl
  have hdata : processLoadData A vol fd filename process s = .ok (-enomem, s.withRam r) := by
    unfold processLoadData
    rw [bind_apply, hprocess]
    simp only [if_neg hformat]
    rfl
  unfold loadInto
  rw [bind_apply, hdata]
  simp only [if_pos hneg]
  rfl

theorem loadCleanup_returns (process : Nat) (hP : s.process process = some zeroProcess) :
    ∃ u, loadCleanup A process s = .ok ((), u) := by
  have hload : loadProcess process s = .ok (zeroProcess, s) := by
    unfold loadProcess
    rw [hP]
  have hnull : ∀ x : Program Stop (Kernel H) Unit, when (0 ≠ 0) x = pure () := fun x => when_false (not_not.mpr rfl) x
  unfold loadCleanup
  by_cases hne : process ≠ 0
  · rw [when_true hne, bind_apply, hload]
    unfold zeroProcess
    simp only
    rw [hnull, hnull, hnull]
    exact ⟨_, rfl⟩
  · rw [when_false hne]
    exact ⟨s, rfl⟩

theorem turnedAway_returns (vol : Volume) (filename : List UInt8) (h : TurnedAway A junk slot s) : ∃ out t,
    processLoadForSlot A.journaled vol junk filename slot s.watched = .ok (out, t) ∧ out.1 < 0 := by
  unfold processLoadForSlot
  rw [bind_apply, get_apply]
  cases h with
  | slotTaken h hjunk =>
    have hslot : s.watched.getProcess slot ≠ 0 := h
    simp only [if_pos hslot, hjunk]
    exact ⟨_, _, rfl, by decide⟩
  | noProcess h hrefused =>
    have hslot : ¬ s.watched.getProcess slot ≠ 0 := not_not_intro h
    obtain ⟨r, hr⟩ := hrefused
    have hnew : onRam (kzalloc A.journaled sizeofProcess) s.watched =
        .ok (0, s.watched.withRam (r.journaled ⟨[0], []⟩)) :=
      zoom_ok.mpr ⟨0, _, kzalloc_journaled_iff.mpr ⟨r, hr, rfl⟩, rfl⟩
    simp only [if_neg hslot]
    rw [bind_apply, hnew]
    exact ⟨_, _, rfl, by decide⟩
  | @noElfFile process r h hne hprocess hrefused hclosed =>
    have hslot : ¬ s.watched.getProcess slot ≠ 0 := not_not_intro h
    obtain ⟨r', hr'⟩ := hrefused
    have hnew : onRam (kzalloc A.journaled sizeofProcess) s.watched =
        .ok (process, s.watched.withRam (r.journaled ⟨[process], []⟩)) :=
      zoom_ok.mpr ⟨process, _, kzalloc_journaled_iff.mpr ⟨r, hprocess, rfl⟩, rfl⟩
    let u := (s.watched.withRam (r.journaled ⟨[process], []⟩)).putProcess process (some zeroProcess)
    have hinto : loadInto A.journaled vol junk.fd filename slot process u =
        .ok ((-enomem, false), u.withRam (r'.journaled ⟨[0, process], []⟩)) :=
      loadInto_refused (s := u) (kzalloc_journaled_iff.mpr ⟨r', hr', rfl⟩) hclosed
    obtain ⟨v, hv⟩ := loadCleanup_returns (A := A.journaled) (s := u.withRam (r'.journaled ⟨[0, process], []⟩))
      process (Function.update_self ..)
    have hneg : -enomem < 0 := by decide
    simp only [if_neg hslot]
    rw [bind_apply, hnew]
    simp only [if_neg hne]
    rw [bind_apply, modify_apply]
    simp only
    rw [bind_apply, hinto]
    simp only [if_pos hneg]
    rw [bind_apply, hv]
    exact ⟨_, _, rfl, hneg⟩

/-- **A load of a slot is all or nothing exactly when it is turned away**: a call that fails leaves
everything as it was, and releases only what it took, just when the slot was taken and the
variable for the new process is null, or there was no block for the process, or none for the
first structure and no open file under the descriptor that is closed then. Of a slot that is taken or
out of range the same says when the call fails as it should. -/
theorem processLoadForSlot_kept_iff (hvalid : C.Valid s.ram.heap) (hopen : OpenFiles C s.files) (vol : Volume)
    (junk : Uninitialised) (filename : List UInt8) (slot : Int) :
    (∀ out t, processLoadForSlot A.journaled vol junk filename slot s.watched = .ok (out, t) → out.1 < 0 →
      (AllKept C s t ↔ TurnedAway A junk slot s)) ∧
    (s.getProcess slot ≠ 0 ∨ slot < 0 ∨ slot ≥ basicOSMaxProcesses →
      ((∃ out t, processLoadForSlot A.journaled vol junk filename slot s.watched = .ok (out, t) ∧ out.1 < 0 ∧
        AllKept C s t) ↔ TurnedAway A junk slot s)) := by
  have hcalls : ∀ out t, processLoadForSlot A.journaled vol junk filename slot s.watched = .ok (out, t) → out.1 < 0 →
      (AllKept C s t ↔ TurnedAway A junk slot s) := by
    intro out t hrun hneg
    by_cases hslot : s.getProcess slot = 0
    · exact freeSlot_kept_iff hvalid hopen hslot hrun hneg
    · rw [slotTaken_kept_iff hslot hrun]
      refine ⟨.slotTaken hslot, fun h => ?_⟩
      cases h with
      | slotTaken _ hjunk => exact hjunk
      | noProcess h _ => exact absurd h hslot
      | noElfFile h _ _ _ _ => exact absurd h hslot
  refine ⟨hcalls, fun _ => ⟨?_, fun h => ?_⟩⟩
  · rintro ⟨out, t, hrun, hneg, hkept⟩
    exact (hcalls out t hrun hneg).mp hkept
  · obtain ⟨out, t, hrun, hneg⟩ := turnedAway_returns vol filename h
    exact ⟨out, t, hrun, hneg, (hcalls out t hrun hneg).mpr h⟩

/-- Every slot is taken. -/
def fullKernel : Kernel Ladder := {noProcesses with processes := fun _ => 0x1000000}

theorem noFiles_open : OpenFiles ladderContract noFiles := by
  intro fd desc h
  unfold Files.fileGetFd at h
  split at h
  · cases h
  · cases h

/-- Turned away from a slot that is taken. -/
theorem processLoadForSlot_kept_taken : ∃ out t,
    processLoadForSlot ladder.journaled flatVolume ⟨0, 0⟩ pathX 0 fullKernel.watched = .ok (out, t) ∧ out.1 < 0 ∧
      AllKept ladderContract fullKernel t := by
  have htaken : fullKernel.getProcess 0 ≠ 0 := by decide
  have hslot := (processLoadForSlot_kept_iff (C := ladderContract) (s := fullKernel) noFiles_valid noFiles_open
    flatVolume ⟨0, 0⟩ pathX 0).2 (.inl htaken)
  exact hslot.mpr (.slotTaken htaken rfl)

/-- `"0:/y"`, which is not there. -/
def pathY : List UInt8 := [0x30, 0x3A, 0x2F, 0x79]

/-- What the load of the missing file returns, and the blocks then live. -/
def missingLoad : Option (Int × List Nat) :=
  ((processLoadForSlot ladder.journaled flatVolume ⟨0, 0⟩ pathY 0 noProcesses.watched).toOption).map fun a =>
    (a.1.1, a.2.ram.heap.1.live)

set_option maxRecDepth 100000 in
/-- **A file that is not there**: the load fails, and the ELF loader's first structure stays live. -/
theorem processLoadForSlot_leaks : ¬ ∀ (s : Kernel Ladder) (vol : Volume) (junk : Uninitialised)
    (filename : List UInt8) (slot : Int) (out : Int × Option Nat) (t : Kernel (Ladder × Journal)),
    ladderContract.Valid s.ram.heap → OpenFiles ladderContract s.files →
      processLoadForSlot ladder.journaled vol junk filename slot s.watched = .ok (out, t) → out.1 < 0 →
        AllKept ladderContract s t := by
  intro h
  have hload : missingLoad = some (-eio, [0x1018000, 0x1010000, 0x100C000, 0x1008000, 0x1004000]) := by decide +kernel
  unfold missingLoad at hload
  cases hrun : processLoadForSlot ladder.journaled flatVolume ⟨0, 0⟩ pathY 0 noProcesses.watched with
  | error e =>
    rw [hrun] at hload
    cases hload
  | ok a =>
    obtain ⟨out, t⟩ := a
    rw [hrun] at hload
    obtain ⟨hres, hlive⟩ := Prod.mk.inj (Option.some.inj hload)
    have hneg : out.1 < 0 := by
      rw [show out.1 = -eio from hres]
      decide
    have hheap : t.ram.heap.1.pages = noProcesses.ram.heap.pages :=
      (h _ _ _ _ _ _ _ noFiles_valid noFiles_open hrun hneg).heap
    have hblock := congrFun hheap 0x1004000
    unfold Ladder.pages at hblock
    rw [show t.ram.heap.1.live = _ from hlive] at hblock
    exact absurd hblock (by decide)

end BasicOS

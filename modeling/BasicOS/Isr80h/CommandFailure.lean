import BasicOS.Isr80h.InvokeSysCommand
import BasicOS.Process.LoadFailure
import BasicOS.Task.CopyString

/-! What `sys_invoke_sys_command` leaves behind when it fails.

It undoes nothing itself: once the program is loaded it has the focus and its slot, also when
its arguments cannot be copied. And a load that fails releases all it took only if it got no further
than its first two requests; later one block stays behind. So a failed call leaves the kernel as it was
just when it never came that far (`sysInvokeSysCommand_failed_iff`). -/
namespace BasicOS
open Lib Program

variable {H : Type} {A : Allocator H} {C : Contract A}

/-! ### What is promised -/

/-- The load is turned away before there is anything that its cleanup forgets: no slot is free, or the heap
has no block for the process, or none for the first structure of the ELF loader while no file is open under
the descriptor that is closed then. -/
inductive LoadUnstarted (A : Allocator H) (junk : Uninitialised) (s : Kernel H) : Prop where
  | noSlot (h : ∀ i, i < basicOSMaxProcesses → s.processes i ≠ 0)
  | noProcess (h : Refused A sizeofProcess s.ram)
  | noElfFile {process r} (hne : process ≠ 0) (hprocess : kzalloc A sizeofProcess s.ram = .ok (process, r))
      (h : Refused A sizeofElfFile r) (hclosed : s.files.fileGetFd junk.fd = none)

/-- The list is empty or names no program, or the load is turned away. -/
inductive CallUnstarted (A : Allocator H) (junk : Uninitialised) (s : Kernel H) (arguments : Nat) : Prop where
  | noProgram (h : arguments = 0 ∨ s.ram.mem arguments = 0)
  | noLoad (h : LoadUnstarted A junk s)

variable {vol : Volume} {junk : Uninitialised} {filename : List UInt8} {s t : Kernel H}

/-! ### The load -/

/-- A load that has a slot, its process and its first structure has started. -/
theorem not_loadUnstarted {i process : Nat} {r : Ram H} (hi : i < basicOSMaxProcesses) (hslot : s.processes i = 0)
    (hne : process ≠ 0) (hprocess : kzalloc A sizeofProcess s.ram = .ok (process, r))
    (hstarted : ¬ Refused A sizeofElfFile r) : ¬ LoadUnstarted A junk s := by
  intro h
  cases h with
  | noSlot h => exact h i hi hslot
  | noProcess h =>
    obtain ⟨r', hr'⟩ := h
    rw [hprocess] at hr'
    exact hne (Prod.mk.inj (Except.ok.inj hr')).1
  | noElfFile _ hprocess' h _ =>
    rw [hprocess] at hprocess'
    obtain ⟨_, rfl⟩ := Prod.mk.inj (Except.ok.inj hprocess')
    exact hstarted h

/-- A load that fails leaves the kernel as it was just when it was turned away; one that succeeds has
filled a slot. -/
theorem processLoadSwitch_unchanged (hvalid : C.Valid s.ram.heap) (hopen : OpenFiles C s.files) :
    Ensures (processLoadSwitch A vol junk filename) (fun out t =>
      (out.1 < 0 ∧ (Unchanged C s t ↔ LoadUnstarted A junk s)) ∨
      (out.1 = 0 ∧ ¬ LoadUnstarted A junk s ∧ t.processes ≠ s.processes)) s := by
  unfold processLoadSwitch processLoad
  rw [Ensures, wp_bind, wp_bind, wp_get]
  rcases getFreeProcessSlot_spec s with hnone | ⟨i, hslot, hi, hzero⟩
  · rw [hnone, if_pos (by decide)]
    refine .inl ⟨by decide, fun _ => .noSlot (fun i hi => ?_), fun _ => .refl s⟩
    unfold Kernel.getFreeProcessSlot at hnone
    split at hnone
    · exact absurd hnone (by simp [eprocNomem])
    · rename_i hfind
      simpa using List.find?_eq_none.mp hfind i (List.mem_range.mpr hi)
  have hfree : s.getProcess s.getFreeProcessSlot = 0 := getProcess_freeSlot (by omega)
  have hstarted : ∀ process r, process ≠ 0 → kzalloc A sizeofProcess s.ram = .ok (process, r) →
      ¬ Refused A sizeofElfFile r → ¬ LoadUnstarted A junk s := fun process r hne hprocess hrefused =>
    not_loadUnstarted hi hzero hne hprocess hrefused
  rw [hslot] at hfree ⊢
  rw [if_neg (by omega)]
  refine (processLoadForSlot_outcome junk (i : Int) hvalid hfree).mono fun out t hout => ?_
  rw [wp_bind, wp_when]
  cases hout with
  | @noProcess r hprocess =>
    refine ⟨fun hzero => absurd hzero (by decide), fun _ => .inl ⟨by decide, ?_⟩⟩
    obtain ⟨_, ⟨_, hlive⟩ | ⟨hne, _⟩⟩ := kzalloc_live hvalid hprocess
    · exact iff_of_true ⟨rfl, rfl, rfl, hlive⟩ (.noProcess ⟨r, hprocess⟩)
    · exact absurd rfl hne
  | @unstarted process r u hne hprocess hunstarted =>
    refine ⟨fun hzero => absurd hzero (by decide), fun _ => .inl ⟨by decide, ?_⟩⟩
    rw [unstarted_unchanged_iff hvalid hopen hne hprocess hunstarted]
    constructor
    · intro hclosed
      obtain ⟨r', _, _, hrefused, _⟩ := hunstarted
      exact .noElfFile hne hprocess ⟨r', hrefused⟩ hclosed
    · intro h
      cases h with
      | noSlot h => exact absurd hzero (h i hi)
      | noProcess h =>
        obtain ⟨r', hr'⟩ := h
        rw [hprocess] at hr'
        exact absurd (Prod.mk.inj (Except.ok.inj hr')).1 hne
      | noElfFile _ _ _ hclosed => exact hclosed
  | @failed process r res t other hne hprocess hrefused hneg _ _ htaken =>
    refine ⟨fun hzero => absurd hzero (by dsimp only; omega), fun _ => .inl ⟨hneg, ?_⟩⟩
    refine iff_of_false (fun hsame => ?_) (hstarted process r hne hprocess hrefused)
    -- the block that stays behind
    obtain ⟨hnew, hlive⟩ := htaken.fresh other (List.mem_singleton_self _)
    exact hlive ((congrFun hsame.heap other).trans hnew)
  | @loaded process r u P other D chunk entry hne hprocess hrefused _ frame _ =>
    refine ⟨fun _ => .inr ⟨rfl, hstarted process r hne hprocess hrefused, fun hsame => ?_⟩, fun hne => absurd rfl hne⟩
    have hentry : Function.update u.processes i process i = s.processes i := congrFun hsame i
    rw [Function.update_self, hzero] at hentry
    exact hne hentry

/-! ### The call -/

theorem keeps_processMalloc (process size : Nat) : Keeps (processMalloc A process size) := by
  unfold processMalloc
  refine (keeps_loadProcess process).bind fun P => ?_
  generalize processFindFreeAllocationSlot P = idx
  refine .ite (keeps_pure _) ((keeps_onRam _).bind fun ptr => .ite (keeps_pure _) ?_)
  refine (keeps_mapInTask P.task _ _ _ _).bind fun res => ?_
  refine .ite ((keeps_onRam _).bind fun _ => keeps_pure _) ?_
  exact keeps_change process (fun P => P.putAllocation _ _) (fun _ => rfl) (keeps_pure _)

theorem keeps_copyArgument (process argv current i : Nat) : Keeps (copyArgument A process argv current i) := by
  unfold copyArgument
  refine (keeps_processMalloc process _).bind fun ptr => .ite (keeps_pure _) ?_
  exact (keeps_onRam _).bind fun _ => (keeps_onRam _).bind fun _ => keeps_pure _

theorem keeps_injectFrom (process argv n current i : Nat) : Keeps (injectFrom A process argv n current i) := by
  induction n generalizing current i with
  | zero => exact keeps_stop _
  | succ n ih =>
    unfold injectFrom
    refine .ite (keeps_pure _) ((keeps_copyArgument process argv current i).bind fun res => .ite (keeps_pure _) ?_)
    exact keeps_get.bind fun s => ih _ _

theorem keeps_processCountCommandArguments (root : Nat) :
    Keeps (processCountCommandArguments root : Program Stop (Kernel H) Int) := by
  intro processes current ids s h
  unfold wp processCountCommandArguments
  split
  · rename_i hrun
    split at hrun
    · obtain ⟨_, rfl⟩ := Prod.mk.inj (Except.ok.inj hrun)
      exact h
    · cases hrun
  · trivial

attribute [local irreducible] injectFrom

/-- The arguments are nothing to the process table. -/
theorem keeps_processInjectArguments (process root : Nat) : Keeps (processInjectArguments A process root) := by
  unfold processInjectArguments
  refine (keeps_processCountCommandArguments root).bind fun argc => .ite (keeps_pure _) ?_
  refine (keeps_processMalloc process _).bind fun argv => .ite (keeps_pure _) ?_
  refine (keeps_injectFrom process argv _ root 0).bind fun res => .ite (keeps_pure _) ?_
  exact keeps_change process (fun P => {P with arguments := ⟨argc, argv⟩}) (fun _ => rfl) (keeps_pure _)

attribute [local irreducible] processLoadSwitch processInjectArguments

/-- **A failed call changes nothing just when it started nothing.** -/
theorem sysInvokeSysCommand_failed_iff {T : Task} {pointer : Nat} {res : Int} (hvalid : C.Valid s.ram.heap)
    (hopen : OpenFiles C s.files) (hT : s.taskList.tasks s.taskList.currentTask = some T)
    (hrun : sysInvokeSysCommand A vol junk pointer s = .ok (res, t)) (hneg : res < 0) :
    Unchanged C s t ↔ CallUnstarted A junk s
      (pagingGetPhysicalAddress s.ram.mem (read32 s.ram.mem T.pageDirectory) pointer) := by
  suffices h : Ensures (sysInvokeSysCommand A vol junk pointer) (fun res t => res < 0 → (Unchanged C s t ↔ CallUnstarted A junk s
      (pagingGetPhysicalAddress s.ram.mem (read32 s.ram.mem T.pageDirectory) pointer))) s from h.returned hrun hneg
  unfold sysInvokeSysCommand
  rw [Ensures, wp_bind, wp_get, wp_bind, wp_onTasks_loadTask hT]
  dsimp only
  split
  · rename_i hnone
    exact fun _ => iff_of_true (.refl s) (.noProgram hnone)
  rename_i hprogram
  have hcall : CallUnstarted A junk s (pagingGetPhysicalAddress s.ram.mem (read32 s.ram.mem T.pageDirectory) pointer) ↔
      LoadUnstarted A junk s := by
    refine ⟨fun h => ?_, .noLoad⟩
    cases h with
    | noProgram h => exact absurd h hprogram
    | noLoad h => exact h
  rw [hcall]
  refine wp.bind (processLoadSwitch_unchanged hvalid hopen) fun out t ht => ?_
  obtain ⟨res, process⟩ := out
  dsimp only at ht ⊢
  rcases ht with ⟨hneg, hiff⟩ | ⟨rfl, hstarted, htable⟩
  · rw [if_pos hneg]
    exact fun _ => hiff
  rw [if_neg (by decide)]
  -- the slot stays filled
  refine wp.bind (keeps_processInjectArguments _ _ t.processes t.currentProcess t.ids t ⟨rfl, rfl, rfl⟩)
    fun res u hu => ?_
  split
  · exact fun _ => iff_of_false (fun hsame => htable (hu.processes.symm.trans hsame.processes)) hstarted
  · refine Ensures.after (fun P v => Ensures.after (fun _ w => ?_) v) u
    exact fun hneg => absurd hneg (by decide)

/-! ### A program that is not there -/

def callerTask : Task := {zeroTask with pageDirectory := 0x1FF000}

/-- A task whose page at 0x900000 holds the string `A`; no process, no file of that name. -/
def callerKernel : Kernel Ladder where
  files := ⟨letterRam openEntry, fun _ => none⟩
  taskList := ⟨Function.update (fun _ => none) 0x5000 (some callerTask), 0, 0, 0x5000⟩
  process := fun _ => none
  elfFile := fun _ => none
  processes := fun _ => 0
  currentProcess := 0

theorem callerKernel_task : callerKernel.taskList.tasks callerKernel.taskList.currentTask = some callerTask := rfl

/-- What the call returns, and the blocks then live. -/
def callerRun (pointer : Nat) : Option (Int × List Nat) :=
  ((sysInvokeSysCommand ladder flatVolume ⟨0, 0⟩ pointer callerKernel).toOption).map fun a => (a.1, a.2.ram.heap.live)

theorem callerRun_run {pointer : Nat} {res : Int} {live : List Nat} (h : callerRun pointer = some (res, live)) :
    ∃ t, sysInvokeSysCommand ladder flatVolume ⟨0, 0⟩ pointer callerKernel = .ok (res, t) ∧ t.ram.heap.live = live := by
  unfold callerRun at h
  cases hrun : sysInvokeSysCommand ladder flatVolume ⟨0, 0⟩ pointer callerKernel with
  | error e =>
    rw [hrun] at h
    cases h
  | ok a =>
    obtain ⟨res', t⟩ := a
    rw [hrun] at h
    obtain ⟨rfl, rfl⟩ := Prod.mk.inj (Option.some.inj h)
    exact ⟨t, rfl, rfl⟩

theorem callerKernel_closed : OpenFiles ladderContract callerKernel.files := by
  intro fd desc h
  unfold Files.fileGetFd at h
  split at h
  · cases h
  · cases h

set_option maxRecDepth 100000 in
/-- An empty name is turned away. -/
theorem sysInvokeSysCommand_failed_empty : ∃ t,
    sysInvokeSysCommand ladder flatVolume ⟨0, 0⟩ 0x900001 callerKernel = .ok (-einvarg, t) ∧
      Unchanged ladderContract callerKernel t := by
  obtain ⟨t, hrun, _⟩ := callerRun_run (show callerRun 0x900001 = some (-einvarg, []) by decide +kernel)
  refine ⟨t, hrun, (sysInvokeSysCommand_failed_iff (letterRam_valid _) callerKernel_closed callerKernel_task hrun
    (by decide)).mpr (.noProgram (.inr ?_))⟩
  decide +kernel

set_option maxRecDepth 100000 in
/-- **A program that is not there**: the call fails, and the block of the ELF loader's first structure stays. -/
theorem sysInvokeSysCommand_failed_leaks : ¬ ∀ (s t : Kernel Ladder) (vol : Volume) (junk : Uninitialised) (pointer : Nat)
    (res : Int), sysInvokeSysCommand ladder vol junk pointer s = .ok (res, t) → res < 0 →
      Unchanged ladderContract s t := by
  intro h
  obtain ⟨t, hrun, hlive⟩ := callerRun_run (show callerRun 0x900000 =
    some (-eio, [0x1018000, 0x1010000, 0x100C000, 0x1008000, 0x1004000]) by decide +kernel)
  have hheap : t.ram.heap.pages = callerKernel.ram.heap.pages := (h _ _ _ _ _ _ hrun (by decide)).heap
  have hblock := congrFun hheap 0x1004000
  unfold Ladder.pages at hblock
  rw [hlive] at hblock
  exact absurd hblock (by decide)

end BasicOS

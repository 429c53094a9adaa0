import BasicOS.Task.RoundRobin
import BasicOS.Task.SwitchRoundTrip

/-! Tasks that take turns.

A program enters the kernel by a timer interrupt or a system call, and its registers are saved in its task; the kernel
goes on with the same program, with the next task, or with one it has just started. `Entry.handle` is such a passage, and
`Scheduler` keeps beside the list what every task should go on with. Whatever the others do in between, a task goes on
with what `task_return` makes of the registers it entered the kernel with, and a new one with what it makes of those of
`task_init` (`resumes_where_interrupted`). As many timer interrupts as there are tasks give each of them its turn, the
interrupted one last (`timer_round`).

`task_return` gives `ebp` and the flags of the kernel (`callTaskReturn_taskReturn`), so both are a parameter of every
passage. The way back from a call that answers is the stub's, which gives back all of them. -/
namespace BasicOS
open Lib Program

/-! ### Contexts -/

/-- The registers `task_init` sets up. -/
def startRegisters (eip : Nat) : Registers :=
  ⟨0, 0, 0, 0, 0, 0, 0, eip, bkeTaskUserCodeSegment, 0, bkeTaskProgramVirtualStackAddrStart, bkeTaskUserDataSegment⟩

/-- The registers of a task and the process it is for. -/
def TaskList.context (l : TaskList) (task : Nat) : Option (Registers × Nat) :=
  (l.tasks task).map fun T => (T.registers, T.process)

variable {l : TaskList} {task : Nat}

theorem context_put (l : TaskList) (task : Nat) (T : Option Task) :
    (l.put task T).context = Function.update l.context task (T.map fun T => (T.registers, T.process)) := by
  funext q
  unfold TaskList.context TaskList.put
  by_cases hq : q = task
  · subst hq
    simp only [Function.update_self]
  · simp only [Function.update_of_ne hq]

theorem loadTask_context (task : Nat) (l : TaskList) :
    Ensures (loadTask task) (fun T l' => l' = l ∧ l.context task = some (T.registers, T.process)) l := by
  unfold TaskList.context
  cases h : l.tasks task with
  | none => exact (wp_error (by unfold loadTask; rw [h])).mpr trivial
  | some T => exact (wp_ok (by unfold loadTask; rw [h])).mpr ⟨rfl, rfl⟩

theorem storeTask_context (task : Nat) (T : Task) (l : TaskList) : Ensures (storeTask task T) (fun _ l' =>
    l'.context = Function.update l.context task (some (T.registers, T.process))) l := by
  cases h : l.tasks task with
  | none => exact (wp_error (by unfold storeTask; rw [h])).mpr trivial
  | some _ => exact (wp_ok (by unfold storeTask; rw [h])).mpr (context_put l task (some T))

/-- The end of the list takes a task as it is. -/
theorem taskLink_context (task : Nat) (l : TaskList) : Ensures (taskLink task) (fun _ l' => l'.context = l.context) l := by
  unfold taskLink
  rw [Ensures, wp_bind, wp_get]
  split
  · rfl
  refine wp.bind (loadTask_context l.taskTail l) ?_
  rintro tail l ⟨rfl, htail⟩
  refine wp.bind (storeTask_context l.taskTail {tail with next := task} l) fun _ l₁ h₁ => ?_
  rw [← htail, Function.update_eq_self] at h₁
  refine wp.bind (loadTask_context task l₁) ?_
  rintro T l₁ ⟨rfl, hT⟩
  refine wp.bind (storeTask_context task {T with prev := l.taskTail} l₁) fun _ l₂ h₂ => ?_
  rw [← hT, Function.update_eq_self] at h₂
  show l₂.context = l.context
  rw [h₂, h₁]

theorem taskNew_context {pageDirectory : Nat} (eip process : Nat) (htask : task ≠ 0) (hdirectory : pageDirectory ≠ 0)
    (l : TaskList) : Ensures (taskNew task pageDirectory eip process) (fun ret l' => ret = task ∧
      l'.context = Function.update l.context task (some (startRegisters eip, process))) l := by
  unfold Ensures wp
  rw [taskNew_ok eip process htask hdirectory]
  refine wp.bind (taskLink_context task _) fun _ l' h => ⟨rfl, ?_⟩
  rw [h, context_put]
  rfl

theorem loadTask_keeps_context (task : Nat) (context : Nat → Option (Registers × Nat)) :
    Preserves (loadTask task) fun l => l.context = context := by
  intro l h
  refine (loadTask_context task l).mono ?_
  rintro t l' ⟨rfl, _⟩
  exact h

theorem taskGetNext_keeps_context (context : Nat → Option (Registers × Nat)) :
    Preserves taskGetNext fun l => l.context = context :=
  preserves_get.bind fun _ => (loadTask_keeps_context _ context).bind fun _ =>
    Preserves.ite (preserves_pure _) (preserves_pure _)

theorem taskListRemove_keeps_context (task : Nat) (context : Nat → Option (Registers × Nat)) :
    Preserves (taskListRemove task) fun l => l.context = context := by
  have hmodify : ∀ f : TaskList → TaskList, (∀ l, (f l).context = l.context) →
      Preserves (modify f : Program Stop TaskList Unit) fun l => l.context = context :=
    fun f hf => preserves_modify fun l h => (hf l).trans h
  unfold taskListRemove
  refine (loadTask_keeps_context task context).bind fun t => Preserves.bind (Preserves.when fun l h => ?_) fun _ => ?_
  · -- the task before it is another one with the same registers
    refine wp.bind (loadTask_context t.prev l) ?_
    rintro p l ⟨rfl, hp⟩
    refine (storeTask_context t.prev {p with next := t.next} l).mono fun _ l₁ h₁ => ?_
    rw [← hp, Function.update_eq_self] at h₁
    exact h₁.trans h
  refine (loadTask_keeps_context task context).bind fun t => preserves_get.bind fun _ => ?_
  refine Preserves.bind (Preserves.when (hmodify _ fun _ => rfl)) fun _ => preserves_get.bind fun _ => ?_
  refine Preserves.bind (Preserves.when (hmodify _ fun _ => rfl)) fun _ => preserves_get.bind fun _ => ?_
  exact Preserves.when ((taskGetNext_keeps_context context).bind fun next => hmodify _ fun _ => rfl)

/-- A freed task has no context, and the others keep theirs. -/
theorem taskFree_context (task : Nat) (l : TaskList) :
    Ensures (taskFree task) (fun _ l' => l'.context = Function.update l.context task none) l := by
  unfold taskFree dropTask
  refine wp.bind (loadTask_keeps_context task l.context l rfl) fun t l₁ h₁ => ?_
  refine wp.bind (taskListRemove_keeps_context task l.context l₁ h₁) fun _ l₂ h₂ => ?_
  rw [wp_bind, wp_modify]
  show (l₂.put task none).context = _
  rw [context_put, h₂]
  rfl

/-! ### In the kernel and out of it -/

def taskCurrentSaveState (frame : InterruptFrame) : Program Stop TaskList Unit := do
  let task := (← get).currentTask
  when (task = 0) (stop (.panic "No task to save!\n"))
  let t ← loadTask task
  storeTask task {t with registers := frame.registers}

/-- Why a program has entered the kernel. -/
inductive Entry where
  | timer
  /-- A system call that answers. -/
  | call (result : Nat)
  /-- A system call that starts a program: its task is made, with what `kzalloc`, `_gen_paging_4gb` and the file gave. -/
  | start (task pageDirectory eip process : Nat)
  /-- The end of the program, by `sys_exit` or a fault. -/
  | exit

/-- `task_return(&task->registers)`: the task that goes on, and the registers it has then. -/
def resume (kernel : KernelReturn) (task : Nat) : Program Stop TaskList (Nat × Registers) := do
  let t ← loadTask task
  return (task, kernel.taskReturn t.registers)

/-- From the entry of the current program to the program that goes on. -/
def Entry.handle (entry : Entry) (frame : InterruptFrame) (kernel : KernelReturn) :
    Program Stop TaskList (Nat × Registers) := do
  taskCurrentSaveState frame
  match entry with
  | .timer =>
    let nextTask ← taskNext
    resume kernel nextTask
  | .call result => return ((← get).currentTask, {frame.registers with eax := result})
  | .start task pageDirectory eip process =>
    let task ← taskNew task pageDirectory eip process
    let _ ← taskSwitch task
    resume kernel task
  | .exit =>
    let _ ← taskFree (← get).currentTask
    let nextTask ← taskNext
    resume kernel nextTask

/-- What `task_return` makes of a context. -/
def KernelReturn.resumes (kernel : KernelReturn) (context : Option (Registers × Nat)) : Option Registers :=
  context.map fun context => kernel.taskReturn context.1

/-! ### What every task should go on with -/

/-- The list, and the context every task should have. -/
structure Scheduler where
  list : TaskList
  contexts : Nat → Option (Registers × Nat)

/-- A task that enters the kernel should go on with what it has then, a new one with its first registers. -/
def Entry.contexts (entry : Entry) (frame : InterruptFrame) (current : Nat) (contexts : Nat → Option (Registers × Nat)) :
    Nat → Option (Registers × Nat) :=
  let saved := Function.update contexts current ((contexts current).map fun context => (frame.registers, context.2))
  match entry with
  | .timer => saved
  | .call _ => saved
  | .start task _ eip process => Function.update saved task (some (startRegisters eip, process))
  | .exit => Function.update saved current none

/-- An entry of the current program and what becomes of it. -/
inductive Scheduler.Step (s : Scheduler) : Entry × InterruptFrame × KernelReturn → Scheduler → Prop where
  | mk {entry frame kernel next list} (h : entry.handle frame kernel s.list = .ok (next, list)) :
      s.Step (entry, frame, kernel) ⟨list, entry.contexts frame s.list.currentTask s.contexts⟩

/-- The task of a new program is there, with a directory. -/
def Entry.Legal : Entry → Prop
  | .start task pageDirectory _ _ => task ≠ 0 ∧ pageDirectory ≠ 0
  | _ => True

/-- Every task has the context it should have. -/
def Scheduler.Agrees (s : Scheduler) : Prop := s.list.context = s.contexts

/-- The states reached by entries from a list as it is. -/
abbrev SchedulerRun : Scheduler → Prop := Run Scheduler.Step (fun _ op => op.1.Legal) Scheduler.Agrees

/-! ### One entry -/

variable {frame : InterruptFrame} {kernel : KernelReturn} {entry : Entry}

theorem taskCurrentSaveState_spec (frame : InterruptFrame) (l : TaskList) :
    Ensures (taskCurrentSaveState frame) (fun _ l' => l'.currentTask = l.currentTask ∧
      l'.context = Function.update l.context l.currentTask
        ((l.context l.currentTask).map fun context => (frame.registers, context.2))) l := by
  unfold taskCurrentSaveState
  rw [Ensures, wp_bind, wp_get, wp_bind, wp_when]
  refine ⟨fun _ => trivial, fun _ => ?_⟩
  cases ht : l.tasks l.currentTask with
  | none =>
    rw [wp_bind]
    exact (wp_error (loadTask_dead ht)).mpr trivial
  | some t =>
    rw [wp_bind]
    refine (wp_ok (loadTask_ok ht)).mpr ((wp_ok (storeTask_ok _ (by rw [ht]; rfl))).mpr ⟨rfl, ?_⟩)
    rw [context_put]
    unfold TaskList.context
    rw [ht]
    rfl

theorem taskNext_spec (l : TaskList) : Ensures taskNext (fun next l' => l'.currentTask = next ∧ l'.context = l.context) l := by
  unfold taskNext taskSwitch
  refine wp.bind (taskGetNext_keeps_context l.context l rfl) fun next l₁ h₁ => ?_
  rw [wp_bind, wp_when]
  refine ⟨fun _ => trivial, fun _ => ?_⟩
  rw [wp_bind, wp_bind, wp_modify, wp_bind]
  refine (loadTask_context next {l₁ with currentTask := next}).mono ?_
  rintro _ _ ⟨rfl, _⟩
  exact ⟨rfl, h₁⟩

theorem resume_spec (kernel : KernelReturn) (task : Nat) (l : TaskList) : Ensures (resume kernel task) (fun next l' =>
    l' = l ∧ next.1 = task ∧ kernel.resumes (l.context task) = some next.2) l := by
  unfold resume
  refine wp.bind (loadTask_context task l) ?_
  rintro t l ⟨rfl, ht⟩
  refine ⟨rfl, rfl, ?_⟩
  rw [ht]
  rfl

/-- What goes on is the current task, from the context it should have or with the answer to its call. -/
structure GoesOn (entry : Entry) (frame : InterruptFrame) (kernel : KernelReturn) (current : Nat) (next : Nat × Registers)
    (l : TaskList) : Prop where
  runs : l.currentTask = next.1
  context : (∀ result, entry ≠ .call result) → kernel.resumes (l.context next.1) = some next.2
  answer : ∀ result, entry = .call result → next = (current, {frame.registers with eax := result})

theorem Entry.handle_spec (frame : InterruptFrame) (kernel : KernelReturn) (l : TaskList) (hlegal : entry.Legal) :
    Ensures (entry.handle frame kernel) (fun next l' => l'.context = entry.contexts frame l.currentTask l.context ∧
      GoesOn entry frame kernel l.currentTask next l') l := by
  unfold Entry.handle
  refine wp.bind (taskCurrentSaveState_spec frame l) fun _ l₁ h₁ => ?_
  obtain ⟨hcurrent, hcontext⟩ := h₁
  cases entry with
  | timer =>
    refine wp.bind (taskNext_spec l₁) fun nextTask l₂ h₂ => ?_
    refine (resume_spec kernel nextTask l₂).mono ?_
    rintro next _ ⟨rfl, rfl, hnext⟩
    exact ⟨h₂.2.trans hcontext, h₂.1, fun _ => hnext, fun _ heq => by cases heq⟩
  | call result =>
    refine ⟨hcontext, rfl, fun hne => absurd rfl (hne result), fun _ heq => ?_⟩
    cases heq
    rw [← hcurrent]
  | start task pageDirectory eip process =>
    refine wp.bind (taskNew_context eip process hlegal.1 hlegal.2 l₁) ?_
    rintro _ l₂ ⟨rfl, hnew⟩
    unfold taskSwitch
    rw [wp_bind, wp_bind, wp_modify, wp_bind]
    refine wp.mono (loadTask_context _ _) ?_ fun _ _ => trivial
    rintro _ _ ⟨rfl, _⟩
    rw [wp_pure]
    refine wp.mono (resume_spec kernel _ _) ?_ fun _ _ => trivial
    rintro next _ ⟨rfl, rfl, hnext⟩
    refine ⟨?_, rfl, fun _ => hnext, fun _ heq => by cases heq⟩
    exact hnew.trans (congrArg (fun context => Function.update context _ _) hcontext)
  | exit =>
    rw [wp_bind, wp_get]
    refine wp.bind (taskFree_context l₁.currentTask l₁) fun _ l₂ h₂ => ?_
    refine wp.bind (taskNext_spec l₂) fun nextTask l₃ h₃ => ?_
    refine (resume_spec kernel nextTask l₃).mono ?_
    rintro next _ ⟨rfl, rfl, hnext⟩
    refine ⟨?_, h₃.1, fun _ => hnext, fun _ heq => by cases heq⟩
    rw [h₃.2, h₂, hcurrent, hcontext]
    rfl

/-! ### One timer interrupt -/

variable {created : List Nat} {i : Nat}

/-- Saving registers leaves the links. -/
theorem WellLinked.saved {t : Task} (h : WellLinked l created) (ht : l.tasks task = some t) (registers : Registers) :
    WellLinked (l.put task (some {t with registers := registers})) created := by
  have hnext : (l.put task (some {t with registers := registers})).nextOf = l.nextOf := by
    funext q
    unfold TaskList.nextOf
    rw [put_tasks]
    by_cases hq : q = task
    · rw [if_pos hq, hq, ht]
    · rw [if_neg hq]
  have hprev : (l.put task (some {t with registers := registers})).prevOf = l.prevOf := by
    funext q
    unfold TaskList.prevOf
    rw [put_tasks]
    by_cases hq : q = task
    · rw [if_pos hq, hq, ht]
    · rw [if_neg hq]
  refine ⟨hnext ▸ h.forward, hprev ▸ h.backward, fun q => ?_, h.nodup, h.nonnull, h.current⟩
  rw [put_tasks, ← h.live]
  by_cases hq : q = task
  · rw [if_pos hq, hq, ht]
    exact iff_of_true rfl rfl
  · rw [if_neg hq]

theorem WellLinked.atTask (h : WellLinked l created) (hne : created ≠ []) (i : Nat) :
    WellLinked (l.atTask created i) created :=
  ⟨h.forward, h.backward, h.live, h.nodup, h.nonnull, fun _ => getD_mod_mem hne i⟩

/-- An interrupt goes on with the task behind the current one. -/
theorem WellLinked.tick (h : WellLinked l created) (hne : created ≠ [])
    (hcurrent : l.currentTask = created.getD (i % created.length) 0) (frame : InterruptFrame) (kernel : KernelReturn) :
    ∃ registers l', Entry.timer.handle frame kernel l =
        .ok ((created.getD ((i + 1) % created.length) 0, registers), l') ∧
      WellLinked l' created ∧ l'.currentTask = created.getD ((i + 1) % created.length) 0 ∧
      l'.context = Entry.timer.contexts frame l.currentTask l.context ∧
      kernel.resumes (l'.context (created.getD ((i + 1) % created.length) 0)) = some registers := by
  have hmem := h.current hne
  obtain ⟨t, ht⟩ := TaskList.live_task ((h.live _).mpr hmem)
  have hsave : taskCurrentSaveState frame l =
      .ok ((), l.put l.currentTask (some {t with registers := frame.registers})) := by
    have hnull : ¬ l.currentTask = 0 := fun hnull => h.nonnull (hnull ▸ hmem)
    unfold taskCurrentSaveState
    rw [bind_apply, get_apply]
    simp only
    rw [when_false hnull, bind_apply, pure_apply]
    simp only
    rw [bind_apply, loadTask_ok ht]
    exact storeTask_ok _ (by rw [ht]; rfl)
  have hwell := h.saved ht frame.registers
  generalize hl₁ : l.put l.currentTask (some {t with registers := frame.registers}) = l₁ at hsave hwell
  have hat : l₁.atTask created i = l₁ := by
    have hsame : l₁.currentTask = l.currentTask := by rw [← hl₁]; rfl
    unfold TaskList.atTask
    rw [← hcurrent, ← hsame]
  have hnext := hwell.forwardLinked.next hne i
  rw [hat] at hnext
  have hwell' := hwell.atTask hne (i + 1)
  obtain ⟨u, hu⟩ := TaskList.live_task ((hwell'.live _).mpr (hwell'.current hne))
  have hload : loadTask (created.getD ((i + 1) % created.length) 0) (l₁.atTask created (i + 1)) =
      .ok (u, l₁.atTask created (i + 1)) := loadTask_ok hu
  have hhandle : Entry.timer.handle frame kernel l =
      .ok ((created.getD ((i + 1) % created.length) 0, kernel.taskReturn u.registers), l₁.atTask created (i + 1)) := by
    unfold Entry.handle resume
    rw [bind_apply, hsave]
    simp only
    rw [bind_apply, hnext]
    simp only
    rw [bind_apply, hload]
    rfl
  have hspec := (Entry.handle_spec frame kernel l (show Entry.timer.Legal from trivial)).returned hhandle
  refine ⟨_, _, hhandle, hwell', rfl, hspec.1, ?_⟩
  exact hspec.2.context fun _ heq => by cases heq

/-! ### Two tasks -/

/-- A list of two tasks, the first of them current. -/
def twoTasks : TaskList where
  tasks q :=
    if q = 0x1000 then some {initialTask 0x9000 0x400000 0x5000 with next := 0x2000}
    else if q = 0x2000 then some {initialTask 0xA000 0x400020 0x6000 with prev := 0x1000}
    else none
  taskHead := 0x1000
  taskTail := 0x2000
  currentTask := 0x1000

theorem twoTasks_wellLinked : WellLinked twoTasks [0x1000, 0x2000] where
  forward := ⟨rfl, rfl, rfl⟩
  backward := ⟨rfl, rfl, rfl⟩
  live q := by
    unfold twoTasks
    simp only
    split
    · simp_all
    · split <;> simp_all
  nodup := by decide
  nonnull := by decide
  current _ := List.mem_cons_self ..

def sevenFrame : InterruptFrame := ⟨7, 7, 7, 7, 7, 7, 7, 7, 7, 7, 7, 7, 7, 7⟩

def kernelReturn : KernelReturn := ⟨0x5FFF00, 0x2⟩

/-! ### Runs -/

theorem agrees_after {s : Scheduler} (hrun : SchedulerRun s) : s.Agrees := by
  refine hrun.invariant (fun _ h => h) fun s op t h hlegal hstep => ?_
  cases hstep with
  | @mk entry frame kernel next list hhandle =>
    have hcontext := ((Entry.handle_spec frame kernel s.list hlegal).returned hhandle).1
    rw [h] at hcontext
    exact hcontext

/-- **A task goes on where it was.** In every run, whatever programs were interrupted, called the kernel, were started or
ended in between: what goes on after an entry is the current task, with what `task_return` makes of the registers it had
when it last entered the kernel, or of those of a new task; or the caller, with its registers and the answer to its call. -/
theorem resumes_where_interrupted {s : Scheduler} (hrun : SchedulerRun s) (hlegal : entry.Legal) {next : Nat × Registers}
    {list : TaskList} (hhandle : entry.handle frame kernel s.list = .ok (next, list)) :
    list.currentTask = next.1 ∧
      ((∃ result, entry = .call result ∧ next = (s.list.currentTask, {frame.registers with eax := result})) ∨
        kernel.resumes (entry.contexts frame s.list.currentTask s.contexts next.1) = some next.2) := by
  obtain ⟨hcontext, hgoes⟩ := (Entry.handle_spec frame kernel s.list hlegal).returned hhandle
  rw [agrees_after hrun] at hcontext
  refine ⟨hgoes.runs, ?_⟩
  by_cases hcall : ∃ result, entry = .call result
  · obtain ⟨result, rfl⟩ := hcall
    exact .inl ⟨result, rfl, hgoes.answer result rfl⟩
  · refine .inr ?_
    rw [← hcontext]
    exact hgoes.context fun result heq => hcall ⟨result, heq⟩

/-- The first task is interrupted, and then the second one. -/
theorem resumes_where_interrupted_two : ∃ s registers list, SchedulerRun s ∧
    Entry.timer.handle sevenFrame kernelReturn s.list = .ok ((0x1000, registers), list) ∧
    kernelReturn.resumes (Entry.timer.contexts sevenFrame s.list.currentTask s.contexts 0x1000) = some registers := by
  have hne : [0x1000, 0x2000] ≠ [] := List.cons_ne_nil _ _
  obtain ⟨_, l, hfirst, hwell, hcurrent, _⟩ := twoTasks_wellLinked.tick (i := 0) hne rfl sevenFrame kernelReturn
  obtain ⟨registers, list, hsecond, _⟩ := hwell.tick (i := 1) hne hcurrent sevenFrame kernelReturn
  have hrun : SchedulerRun ⟨l, Entry.timer.contexts sevenFrame twoTasks.currentTask twoTasks.context⟩ :=
    .step (.start (rfl : Scheduler.Agrees ⟨twoTasks, twoTasks.context⟩)) (show Entry.Legal .timer from trivial) (.mk hfirst)
  obtain ⟨_, ⟨_, hcall, _⟩ | hcontext⟩ := resumes_where_interrupted hrun (show Entry.Legal .timer from trivial) hsecond
  · cases hcall
  · exact ⟨_, registers, list, hrun, hsecond, hcontext⟩

/-! ### A round of the timer -/

/-- Timer interrupts one after the other, with what the interrupted programs had and the kernel has: what goes on after
each. -/
def timerTimes : List (InterruptFrame × KernelReturn) → Program Stop TaskList (List (Nat × Registers))
  | [] => return []
  | (frame, kernel) :: interrupts => do
    let next ← Entry.timer.handle frame kernel
    let rest ← timerTimes interrupts
    return next :: rest

/-- Turns that are less than a round apart are of different tasks. -/
theorem getD_mod_ne (hnodup : created.Nodup) {j k : Nat} (hjk : j < k) (hround : k < j + created.length) :
    created.getD (j % created.length) 0 ≠ created.getD (k % created.length) 0 := by
  have hpos : 0 < created.length := by omega
  rw [List.getD_eq_getElem _ _ (Nat.mod_lt j hpos), List.getD_eq_getElem _ _ (Nat.mod_lt k hpos)]
  intro heq
  have hmod : (k - j) % created.length = 0 := Nat.sub_mod_eq_zero_of_mod_eq (hnodup.getElem_inj_iff.mp heq).symm
  rw [Nat.mod_eq_of_lt (by omega)] at hmod
  omega

/-- Interrupts go through the tasks, and a task that was not interrupted before its turn goes on from its context. -/
theorem WellLinked.ticks (h : WellLinked l created) (hne : created ≠ [])
    (hcurrent : l.currentTask = created.getD (i % created.length) 0) (interrupts : List (InterruptFrame × KernelReturn)) :
    ∃ resumed l', timerTimes interrupts l = .ok (resumed, l') ∧ WellLinked l' created ∧
      resumed.length = interrupts.length ∧
      ∀ j (hj : j < resumed.length) (hj' : j < interrupts.length),
        resumed[j].1 = created.getD ((i + 1 + j) % created.length) 0 ∧
        ((∀ k, k ≤ j → created.getD ((i + k) % created.length) 0 ≠ resumed[j].1) →
          interrupts[j].2.resumes (l.context resumed[j].1) = some resumed[j].2) := by
  induction interrupts generalizing l i with
  | nil => exact ⟨[], l, rfl, h, rfl, fun j hj => absurd hj (Nat.not_lt_zero j)⟩
  | cons interrupt interrupts ih =>
    obtain ⟨frame, kernel⟩ := interrupt
    obtain ⟨registers, l₁, htick, hwell, hcurrent₁, hcontext, hnext⟩ := h.tick hne hcurrent frame kernel
    obtain ⟨resumed, l', hticks, hwell', hlength, hrest⟩ := ih hwell hcurrent₁
    have hkeep : ∀ q, l.currentTask ≠ q → l₁.context q = l.context q := fun q hq => by
      rw [hcontext]
      exact Function.update_of_ne hq.symm ..
    refine ⟨(created.getD ((i + 1) % created.length) 0, registers) :: resumed, l', ?_, hwell', congrArg (· + 1) hlength,
      fun j hj hj' => ?_⟩
    · unfold timerTimes
      rw [bind_apply, htick]
      simp only
      rw [bind_apply, hticks]
      rfl
    cases j with
    | zero =>
      refine ⟨rfl, fun hothers => ?_⟩
      show kernel.resumes (l.context (created.getD ((i + 1) % created.length) 0)) = some registers
      rw [← hnext, hkeep _ (hcurrent ▸ hothers 0 (Nat.le_refl 0))]
    | succ j =>
      obtain ⟨htask, hown⟩ := hrest j (Nat.lt_of_succ_lt_succ hj) (Nat.lt_of_succ_lt_succ hj')
      simp only [List.getElem_cons_succ]
      refine ⟨by rw [htask, Nat.add_right_comm (i + 1), Nat.add_assoc (i + 1)], fun hothers => ?_⟩
      rw [← hkeep _ (hcurrent ▸ hothers 0 (Nat.zero_le _))]
      exact hown fun k hk => by
        rw [Nat.add_right_comm, Nat.add_assoc]
        exact hothers (k + 1) (Nat.succ_le_succ hk)

/-- After an interrupt and the turns of all the others, the program goes on from where it was interrupted. -/
theorem WellLinked.returns (h : WellLinked l created) (hcurrent : l.currentTask = created.getD (i % created.length) 0)
    {interrupts : List (InterruptFrame × KernelReturn)} (hround : interrupts.length + 1 = created.length)
    {resumed : List (Nat × Registers)} {l' : TaskList}
    (hticks : timerTimes ((frame, kernel) :: interrupts) l = .ok (resumed, l')) :
    resumed.getLast? = some (l.currentTask,
      (((frame, kernel) :: interrupts).getLast (List.cons_ne_nil _ _)).2.taskReturn frame.registers) := by
  have hne : created ≠ [] := List.ne_nil_of_length_pos (by omega)
  have hturn : ∀ k, k = i + created.length → created.getD (k % created.length) 0 = l.currentTask := by
    rintro k rfl
    rw [hcurrent, Nat.add_mod_right]
  obtain ⟨registers, l₁, htick, hwell, hcurrent₁, hcontext, hnext⟩ := h.tick hne hcurrent frame kernel
  obtain ⟨rest, l₂, hrest, _, hlength, hresumed⟩ := hwell.ticks hne hcurrent₁ interrupts
  obtain rfl : (created.getD ((i + 1) % created.length) 0, registers) :: rest = resumed := by
    unfold timerTimes at hticks
    rw [bind_apply, htick] at hticks
    simp only at hticks
    rw [bind_apply, hrest] at hticks
    exact (Prod.mk.inj (Except.ok.inj hticks)).1
  have hsaved : ∀ kernel' : KernelReturn,
      kernel'.resumes (l₁.context l.currentTask) = some (kernel'.taskReturn frame.registers) := by
    intro kernel'
    obtain ⟨t, ht⟩ := TaskList.live_task ((h.live _).mpr (h.current hne))
    rw [hcontext]
    unfold Entry.contexts KernelReturn.resumes
    simp only [Function.update_self, TaskList.context, ht, Option.map_some]
  cases interrupts with
  | nil =>
    obtain rfl := List.eq_nil_of_length_eq_zero hlength
    have htask := hturn (i + 1) (by rw [← hround]; rfl)
    rw [htask, hsaved] at hnext
    rw [htask, ← Option.some_inj.mp hnext]
    rfl
  | cons interrupt interrupts =>
    have hlast : interrupts.length < rest.length := by rw [hlength, List.length_cons]; omega
    obtain ⟨htask, hown⟩ := hresumed interrupts.length hlast (Nat.lt_succ_self _)
    rw [hturn (i + 1 + 1 + interrupts.length) (by rw [← hround, List.length_cons]; omega)] at htask
    have hresumes := hown fun k hk => by
      rw [htask, hcurrent]
      exact (getD_mod_ne h.nodup (by omega) (by rw [← hround, List.length_cons]; omega)).symm
    rw [htask, hsaved] at hresumes
    rw [List.getLast?_cons, List.getLast?_eq_getElem?, hlength, List.length_cons, Nat.add_sub_cancel,
      List.getElem?_eq_getElem hlast, List.getLast_cons (List.cons_ne_nil _ _), List.getLast_eq_getElem]
    exact congrArg some (Prod.ext htask (Option.some_inj.mp hresumes).symm)

/-- **Every program gets its turn.** As many timer interrupts as there are tasks let each of them go on once, in the order
they were created, cyclically from behind the current one: the others from the context they had, and the program that was
interrupted first at the end, from where it was; each of them as the `task_return` of its turn has it. -/
theorem timer_round (h : WellLinked l created) (frame : InterruptFrame) (kernel : KernelReturn)
    (interrupts : List (InterruptFrame × KernelReturn)) (hround : interrupts.length + 1 = created.length) :
    ∃ resumed l', timerTimes ((frame, kernel) :: interrupts) l = .ok (resumed, l') ∧ WellLinked l' created ∧
      resumed.map Prod.fst = created.rotate (created.idxOf l.currentTask + 1) ∧
      resumed.getLast? = some (l.currentTask,
        (((frame, kernel) :: interrupts).getLast (List.cons_ne_nil _ _)).2.taskReturn frame.registers) ∧
      ∀ j (hj : j < resumed.length) (hj' : j < ((frame, kernel) :: interrupts).length), resumed[j].1 ≠ l.currentTask →
        ((frame, kernel) :: interrupts)[j].2.resumes (l.context resumed[j].1) = some resumed[j].2 := by
  have hne : created ≠ [] := List.ne_nil_of_length_pos (by omega)
  have hpos := List.length_pos_of_ne_nil hne
  have hidx := List.idxOf_lt_length_of_mem (h.current hne)
  generalize hi : created.idxOf l.currentTask = i at hidx
  have hcurrent : l.currentTask = created.getD (i % created.length) 0 := by
    rw [Nat.mod_eq_of_lt hidx, List.getD_eq_getElem _ _ hidx]
    subst hi
    exact (List.getElem_idxOf hidx).symm
  obtain ⟨resumed, l', hticks, hwell, hlength, hresumed⟩ := h.ticks hne hcurrent ((frame, kernel) :: interrupts)
  have hcount : ((frame, kernel) :: interrupts).length = created.length := hround
  refine ⟨resumed, l', hticks, hwell, ?_, h.returns hcurrent hround hticks, fun j hj hj' hother => ?_⟩
  · refine List.ext_getElem (by rw [List.length_map, List.length_rotate, hlength, hcount]) fun j h1 h2 => ?_
    rw [List.length_map] at h1
    rw [List.getElem_map, (hresumed j h1 (hlength ▸ h1)).1, List.getElem_rotate,
      List.getD_eq_getElem _ _ (Nat.mod_lt _ hpos)]
    simp only [Nat.add_comm j]
  · obtain ⟨htask, hown⟩ := hresumed j hj hj'
    have hbefore : j + 1 < created.length := by
      by_contra hlast
      refine hother ?_
      rw [htask, hcurrent, show i + 1 + j = i + created.length by omega, Nat.add_mod_right]
    refine hown fun k hk => ?_
    rw [htask]
    exact getD_mod_ne h.nodup (by omega) (by omega)

/-- With two tasks, two interrupts. -/
theorem timer_round_two : ∃ resumed l',
    timerTimes [(sevenFrame, kernelReturn), (sevenFrame, kernelReturn)] twoTasks = .ok (resumed, l') ∧
    resumed.map Prod.fst = [0x2000, 0x1000] ∧
    resumed.getLast? = some (0x1000, kernelReturn.taskReturn sevenFrame.registers) := by
  obtain ⟨resumed, l', hticks, _, horder, hlast, _⟩ :=
    timer_round twoTasks_wellLinked sevenFrame kernelReturn [(sevenFrame, kernelReturn)] rfl
  exact ⟨resumed, l', hticks, horder, hlast⟩

end BasicOS

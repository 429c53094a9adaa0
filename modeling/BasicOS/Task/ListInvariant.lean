import BasicOS.Task.List
import BasicOS.Lib.Linked
import BasicOS.Lib.Run
import Mathlib.Data.List.Nodup

/-! The task list over whole runs.

A run starts from the empty list and creates, frees and switches tasks in any order;
`created` keeps the live tasks in the order they were created. `WellLinked` is what the
list is supposed to be in every state: that order, read forwards from `task_head` and
backwards from `task_tail`, with a live current task.

`task_list_remove` does not touch the `prev` of the task after the one it removes, so
freeing any task but the last leaves a back pointer to freed memory, and `task_new`
without memory frees the null task. `taskList_wellLinked` says these are the only
operations that break the list: in every state reached without them the list is well
linked, and an operation keeps it so exactly when it is not one of them. -/
namespace BasicOS
open Lib

/-! ### The list -/

def TaskList.nextOf (s : TaskList) (a : Nat) : Nat :=
  match s.tasks a with
  | some t => t.next
  | none => 0

def TaskList.prevOf (s : TaskList) (a : Nat) : Nat :=
  match s.tasks a with
  | some t => t.prev
  | none => 0

/-- The list holds the tasks `created`, in that order. -/
structure WellLinked (s : TaskList) (created : List Nat) : Prop where
  forward : Seg s.nextOf s.taskHead created 0
  backward : BackSeg s.prevOf 0 created s.taskTail
  live : ∀ t, (s.tasks t).isSome ↔ t ∈ created
  nodup : created.Nodup
  nonnull : 0 ∉ created
  current : created ≠ [] → s.currentTask ∈ created

/-! ### Runs -/

inductive TaskOp where
  /-- `task_new`, with what `kzalloc`, `_gen_paging_4gb` and the program's header answer. -/
  | new (task pageDirectory eip process : Nat)
  | free (task : Nat)
  | switch (task : Nat)

structure TaskHistory where
  list : TaskList
  created : List Nat

def TaskHistory.empty : TaskHistory := ⟨⟨fun _ => none, 0, 0, 0⟩, []⟩

/-- The live tasks after the operation. -/
def TaskOp.created : TaskOp → List Nat → List Nat
  | .new task _ _ _, created => if task = 0 then created else created ++ [task]
  | .free task, created => created.erase task
  | .switch _, created => created

def TaskOp.call : TaskOp → Program Stop TaskList Unit
  | .new task pageDirectory eip process => do
    let _ ← taskNew task pageDirectory eip process
  | .free task => do
    let _ ← taskFree task
  | .switch task => do
    let _ ← taskSwitch task

def TaskHistory.step (s : TaskHistory) (op : TaskOp) : Except Stop TaskHistory :=
  match op.call s.list with
  | .ok (_, list) => .ok ⟨list, op.created s.created⟩
  | .error e => .error e

/-- `kzalloc` answers null or memory that no live task occupies, `_gen_paging_4gb` never
answers null, and only live tasks are freed or switched to. -/
def TaskHistory.Legal (s : TaskHistory) : TaskOp → Prop
  | .new task pageDirectory _ _ => (task = 0 ∨ s.list.tasks task = none) ∧ pageDirectory ≠ 0
  | .free task => (s.list.tasks task).isSome
  | .switch task => (s.list.tasks task).isSome

/-- The task could be allocated, and the one freed is the last of the list. -/
def TaskHistory.Keeps (s : TaskHistory) : TaskOp → Prop
  | .new task _ _ _ => task ≠ 0
  | .free task => task = s.list.taskTail
  | .switch _ => True

/-- The states of the runs from the empty list, by legal operations that satisfy `ok`. -/
abbrev TaskRun (ok : TaskHistory → TaskOp → Prop) : TaskHistory → Prop :=
  Run (fun s op t => s.step op = .ok t) (fun s op => s.Legal op ∧ ok s op) (· = TaskHistory.empty)

theorem TaskRun.empty (ok : TaskHistory → TaskOp → Prop) : TaskRun ok TaskHistory.empty := .start rfl

theorem TaskRun.next {ok : TaskHistory → TaskOp → Prop} {s t : TaskHistory} (h : TaskRun ok s) (op : TaskOp)
    (hlegal : s.Legal op) (hok : ok s op) (hstep : s.step op = .ok t) : TaskRun ok t :=
  .step h ⟨hlegal, hok⟩ hstep

/-! ### Fields after an update -/

theorem put_tasks (s : TaskList) (task a : Nat) (t : Option Task) :
    (s.put task t).tasks a = if a = task then t else s.tasks a := by
  unfold TaskList.put
  by_cases h : a = task
  · subst h
    simp
  · simp [h]

@[simp] theorem put_taskHead (s : TaskList) (task : Nat) (t : Option Task) :
    (s.put task t).taskHead = s.taskHead := rfl

@[simp] theorem put_taskTail (s : TaskList) (task : Nat) (t : Option Task) :
    (s.put task t).taskTail = s.taskTail := rfl

theorem TaskList.live_task {s : TaskList} {a : Nat} (h : (s.tasks a).isSome) : ∃ t, s.tasks a = some t :=
  Option.isSome_iff_exists.mp h

theorem TaskList.nextOf_of {s : TaskList} {a : Nat} {t : Task} (h : s.tasks a = some t) : s.nextOf a = t.next := by
  unfold nextOf
  rw [h]

theorem TaskList.prevOf_of {s : TaskList} {a : Nat} {t : Task} (h : s.tasks a = some t) : s.prevOf a = t.prev := by
  unfold prevOf
  rw [h]

theorem loadTask_ok {s : TaskList} {a : Nat} {t : Task} (h : s.tasks a = some t) : loadTask a s = .ok (t, s) := by
  unfold loadTask
  rw [h]

theorem loadTask_dead {s : TaskList} {a : Nat} (h : s.tasks a = none) : loadTask a s = .error .fault := by
  unfold loadTask
  rw [h]

theorem storeTask_ok {s : TaskList} {a : Nat} (t : Task) (h : (s.tasks a).isSome) :
    storeTask a t s = .ok ((), s.put a (some t)) := by
  obtain ⟨u, hu⟩ := TaskList.live_task h
  unfold storeTask
  rw [hu]

/-! ### Making a task -/

/-- The task `task_init` sets up. -/
def initialTask (pageDirectory eip process : Nat) : Task :=
  ⟨pageDirectory, ⟨0, 0, 0, 0, 0, 0, 0, eip, bkeTaskUserCodeSegment, 0, bkeTaskProgramVirtualStackAddrStart,
    bkeTaskUserDataSegment⟩, process, 0, 0⟩

theorem put_put (s : TaskList) (task : Nat) (t u : Option Task) : (s.put task t).put task u = s.put task u := by
  unfold TaskList.put
  simp

theorem taskInit_ok {s : TaskList} {task : Nat} {pageDirectory : Nat} (eip process : Nat)
    (hlive : (s.tasks task).isSome) (hdir : pageDirectory ≠ 0) :
    taskInit task pageDirectory eip process s =
      .ok (0, s.put task (some (initialTask pageDirectory eip process))) := by
  have hput : ∀ t, (s.put task (some t)).tasks task = some t := fun t => by rw [put_tasks, if_pos rfl]
  unfold taskInit
  rw [Program.bind_apply, storeTask_ok _ hlive]
  simp only
  rw [Program.bind_apply, loadTask_ok (hput _)]
  simp only
  rw [Program.bind_apply, storeTask_ok _ (by rw [hput]; rfl), put_put]
  simp only
  rw [if_neg hdir, Program.bind_apply, loadTask_ok (hput _)]
  simp only
  rw [Program.bind_apply, storeTask_ok _ (by rw [hput]; rfl), put_put]
  rfl

/-- `task_link` on an empty list. -/
theorem taskLink_empty {s : TaskList} (task : Nat) (hhead : s.taskHead = 0) :
    taskLink task s = .ok ((), {s with taskHead := task, taskTail := task, currentTask := task}) := by
  unfold taskLink
  rw [Program.bind_apply, Program.get_apply]
  simp only
  rw [if_pos hhead]
  rfl

/-- `task_link` behind a last task. -/
theorem taskLink_behind {s : TaskList} {task : Nat} {t tail : Task} (hhead : s.taskHead ≠ 0)
    (ht : s.tasks task = some t) (htail : s.tasks s.taskTail = some tail) (hne : task ≠ s.taskTail) :
    taskLink task s = .ok ((), {(s.put s.taskTail (some {tail with next := task})).put task
      (some {t with prev := s.taskTail}) with taskTail := task}) := by
  have htask : (s.put s.taskTail (some {tail with next := task})).tasks task = some t := by
    rw [put_tasks, if_neg hne, ht]
  unfold taskLink
  rw [Program.bind_apply, Program.get_apply]
  simp only
  rw [if_neg hhead, Program.bind_apply, loadTask_ok htail]
  simp only
  rw [Program.bind_apply, storeTask_ok _ (by rw [htail]; rfl)]
  simp only
  rw [Program.bind_apply, loadTask_ok htask]
  simp only
  rw [Program.bind_apply, storeTask_ok _ (by rw [htask]; rfl)]
  rfl

theorem taskNew_ok {s : TaskList} {task pageDirectory : Nat} (eip process : Nat) (htask : task ≠ 0)
    (hdir : pageDirectory ≠ 0) :
    taskNew task pageDirectory eip process s =
      (taskLink task >>= fun _ => pure task) (s.put task (some (initialTask pageDirectory eip process))) := by
  have hput : ((s.put task (some zeroTask)).tasks task).isSome := by rw [put_tasks, if_pos rfl]; rfl
  unfold taskNew
  rw [if_neg htask, Program.bind_apply, Program.modify_apply]
  simp only
  rw [Program.bind_apply, taskInit_ok eip process hput hdir, put_put]
  rfl

/-- Without memory `task_new` frees the null task. -/
theorem taskNew_null {s : TaskList} (pageDirectory eip process : Nat) (hnull : s.tasks 0 = none) :
    taskNew 0 pageDirectory eip process s = .error .fault := by
  unfold taskNew taskFree
  rw [if_pos rfl, Program.bind_apply, Program.bind_apply, loadTask_dead hnull]

/-! ### A new task goes to the end -/

theorem WellLinked.head_eq_zero {s : TaskList} {created : List Nat} (h : WellLinked s created) :
    s.taskHead = 0 ↔ created = [] := by
  cases created with
  | nil => exact iff_of_true h.forward rfl
  | cons a rest =>
    refine iff_of_false (fun hzero => h.nonnull ?_) (List.cons_ne_nil _ _)
    rw [← hzero, h.forward.1]
    exact List.mem_cons_self ..

/-- The last task of a list that is not empty is its tail. -/
theorem WellLinked.tail_eq {s : TaskList} {xs : List Nat} {a : Nat} (h : WellLinked s (xs ++ [a])) :
    a = s.taskTail := (backSeg_concat.mp h.backward).2

/-- What a list without tasks becomes. -/
theorem wellLinked_single {s : TaskList} {task : Nat} {t : Task} (hempty : WellLinked s []) (htask : task ≠ 0)
    (hprev : t.prev = 0) (hnext : t.next = 0) :
    WellLinked {s.put task (some t) with taskHead := task, taskTail := task, currentTask := task} [task] := by
  have hself : (s.put task (some t)).tasks task = some t := by rw [put_tasks, if_pos rfl]
  refine ⟨⟨rfl, ?_⟩, ⟨?_, rfl⟩, fun a => ?_, List.nodup_singleton _, ?_, fun _ => List.mem_singleton_self _⟩
  · exact (TaskList.nextOf_of (s := s.put task (some t)) hself).trans hnext
  · exact (TaskList.prevOf_of (s := s.put task (some t)) hself).trans hprev
  · show ((s.put task (some t)).tasks a).isSome ↔ _
    rw [put_tasks, List.mem_singleton]
    by_cases ha : a = task
    · simp [ha]
    · simpa [ha] using hempty.live a
  · rw [List.mem_singleton]
    exact fun h => htask h.symm

/-- Linking a task that was not live behind the last one. -/
theorem WellLinked.append {s s' : TaskList} {xs : List Nat} {a task : Nat} {t : Task}
    (h : WellLinked s (xs ++ [a])) (htask : task ≠ 0) (hdead : s.tasks task = none)
    (htasks : s'.tasks = fun b => if b = task then some t else
      if b = a then (s.tasks a).map ({· with next := task}) else s.tasks b)
    (hprev : t.prev = a) (hnext : t.next = 0) (hhead : s'.taskHead = s.taskHead) (htail : s'.taskTail = task)
    (hcurrent : s'.currentTask = s.currentTask) : WellLinked s' (xs ++ [a] ++ [task]) := by
  obtain ⟨hforward, hlast⟩ := seg_concat.mp h.forward
  obtain ⟨hbackward, _⟩ := backSeg_concat.mp h.backward
  obtain ⟨u, hu⟩ := TaskList.live_task ((h.live a).mpr (by simp))
  have hmem : ∀ b ∈ xs ++ [a], b ≠ task := by
    rintro b hb rfl
    have := (h.live b).mpr hb
    rw [hdead] at this
    cases this
  have ha : a ≠ task := hmem a (by simp)
  have hxs : ∀ b ∈ xs, b ≠ a := by
    rintro b hb rfl
    exact (List.nodup_append.mp h.nodup).2.2 _ hb _ (List.mem_singleton_self _) rfl
  have hother : ∀ b, b ≠ task → b ≠ a → s'.tasks b = s.tasks b := fun b h1 h2 => by
    rw [htasks]
    simp [h1, h2]
  have hnew : s'.tasks task = some t := by rw [htasks]; simp
  have hold : s'.tasks a = some {u with next := task} := by rw [htasks]; simp [ha, hu]
  refine ⟨?_, ?_, fun b => ?_, ?_, ?_, fun _ => ?_⟩
  · rw [seg_concat, seg_concat, hhead, TaskList.nextOf_of hold, TaskList.nextOf_of hnew]
    refine ⟨⟨hforward.congr fun b hb => ?_, rfl⟩, hnext⟩
    unfold TaskList.nextOf
    rw [hother b (hmem b (by simp [hb])) (hxs b hb)]
  · rw [backSeg_concat, backSeg_concat, TaskList.prevOf_of hnew, htail, hprev, TaskList.prevOf_of hold]
    refine ⟨⟨?_, rfl⟩, rfl⟩
    have hback := hbackward
    rw [TaskList.prevOf_of hu] at hback
    refine hback.congr fun b hb => ?_
    unfold TaskList.prevOf
    rw [hother b (hmem b (by simp [hb])) (hxs b hb)]
  · rw [List.mem_append, List.mem_singleton]
    by_cases hb : b = task
    · subst hb
      simp [hnew]
    · rw [← h.live b]
      by_cases hba : b = a
      · subst hba
        simp [hold, hu, hb]
      · rw [hother b hb hba]
        simp [hb]
  · exact List.nodup_append.mpr ⟨h.nodup, List.nodup_singleton _, fun b hb c hc => by
      rw [List.mem_singleton] at hc
      exact hc ▸ hmem b hb⟩
  · rw [List.mem_append, List.mem_singleton]
    rintro (hzero | hzero)
    · exact h.nonnull hzero
    · exact htask hzero.symm
  · rw [hcurrent]
    exact List.mem_append_left _ (h.current (by simp))

/-! ### Freeing the last task -/

/-- Freeing the only task empties the list. -/
theorem taskFree_only {s : TaskList} {task : Nat} {t : Task} (ht : s.tasks task = some t) (hprev : t.prev = 0)
    (hnext : t.next = 0) (hhead : task = s.taskHead) (htail : task = s.taskTail) (hcurrent : task = s.currentTask) :
    taskFree task s = .ok (0, {s.put task none with taskHead := 0, taskTail := 0, currentTask := 0}) := by
  obtain ⟨tasks, head, tail, current⟩ := s
  simp only at ht hhead htail hcurrent
  subst hhead htail hcurrent
  unfold taskFree taskListRemove taskGetNext
  rw [Program.bind_apply, loadTask_ok ht]
  simp only [Program.bind_apply, Program.get_apply, Program.modify_apply, Program.pure_apply, Program.when, loadTask,
    ht, hprev, hnext, ne_eq, not_true_eq_false, if_true, if_false]
  rfl

/-- Freeing the last of several tasks. -/
theorem taskFree_last {s : TaskList} {task : Nat} {t p : Task} (ht : s.tasks task = some t) (hprev : t.prev ≠ 0)
    (hp : s.tasks t.prev = some p) (hne : task ≠ t.prev) (hnext : t.next = 0) (hhead : task ≠ s.taskHead)
    (htail : task = s.taskTail) :
    taskFree task s = .ok (0, {(s.put t.prev (some {p with next := 0})).put task none with
      taskTail := t.prev,
      currentTask := if task = s.currentTask then s.taskHead else s.currentTask}) := by
  obtain ⟨tasks, head, tail, current⟩ := s
  simp only at ht hp hhead htail
  subst htail
  have htask : Function.update tasks t.prev (some {p with next := 0}) task = some t := by
    rw [Function.update_of_ne hne, ht]
  unfold taskFree taskListRemove taskGetNext
  by_cases hcurrent : task = current
  · subst hcurrent
    simp only [Program.bind_apply, Program.get_apply, Program.modify_apply, Program.pure_apply, Program.when, loadTask,
      storeTask, TaskList.put, ht, hp, htask, hprev, hnext, hhead, ne_eq, not_false_eq_true, not_true_eq_false,
      if_true, if_false]
    rfl
  · simp only [Program.bind_apply, Program.get_apply, Program.modify_apply, Program.pure_apply, Program.when, loadTask,
      storeTask, TaskList.put, ht, hp, htask, hprev, hnext, hhead, hcurrent, ne_eq, not_false_eq_true, if_true,
      if_false]
    rfl

theorem WellLinked.last_task {s : TaskList} {xs : List Nat} {a : Nat} (h : WellLinked s (xs ++ [a])) :
    ∃ t, s.tasks a = some t ∧ t.next = 0 ∧ BackSeg s.prevOf 0 xs t.prev := by
  obtain ⟨t, ht⟩ := TaskList.live_task ((h.live a).mpr (by simp))
  have hnext := (seg_concat.mp h.forward).2
  have hback := (backSeg_concat.mp h.backward).1
  rw [TaskList.nextOf_of ht] at hnext
  rw [TaskList.prevOf_of ht] at hback
  exact ⟨t, ht, hnext, hback⟩

theorem wellLinked_empty {s : TaskList} (hdead : ∀ a, s.tasks a = none) (hhead : s.taskHead = 0)
    (htail : s.taskTail = 0) : WellLinked s [] :=
  ⟨hhead, htail.symm, fun a => by simp [hdead a], List.nodup_nil, List.not_mem_nil, fun h => absurd rfl h⟩

/-- Unlinking the last of several tasks. -/
theorem WellLinked.removeLast {s s' : TaskList} {xs : List Nat} {a task : Nat}
    (h : WellLinked s (xs ++ [a] ++ [task]))
    (htasks : s'.tasks = fun b => if b = task then none else
      if b = a then (s.tasks a).map ({· with next := 0}) else s.tasks b)
    (hhead : s'.taskHead = s.taskHead) (htail : s'.taskTail = a)
    (hcurrent : s'.currentTask = if task = s.currentTask then s.taskHead else s.currentTask) :
    WellLinked s' (xs ++ [a]) := by
  have hforward := (seg_concat.mp (seg_concat.mp h.forward).1).1
  obtain ⟨t, ht, hnext, hback⟩ := h.last_task
  have hbackward := (backSeg_concat.mp hback).1
  obtain ⟨u, hu⟩ := TaskList.live_task ((h.live a).mpr (by simp))
  obtain ⟨hnodup, _, hapart⟩ := List.nodup_append.mp h.nodup
  have hne : ∀ b ∈ xs ++ [a], b ≠ task := fun b hb => hapart b hb task (List.mem_singleton_self _)
  have hxs : ∀ b ∈ xs, b ≠ a := fun b hb => (List.nodup_append.mp hnodup).2.2 b hb a (List.mem_singleton_self _)
  have hother : ∀ b, b ≠ task → b ≠ a → s'.tasks b = s.tasks b := fun b h1 h2 => by
    rw [htasks]
    simp [h1, h2]
  have hold : s'.tasks a = some {u with next := 0} := by
    rw [htasks]
    simp [hne a (by simp), hu]
  refine ⟨?_, ?_, fun b => ?_, hnodup, fun hzero => h.nonnull (List.mem_append_left _ hzero), fun _ => ?_⟩
  · rw [seg_concat, hhead, TaskList.nextOf_of hold]
    refine ⟨hforward.congr fun b hb => ?_, rfl⟩
    unfold TaskList.nextOf
    rw [hother b (hne b (by simp [hb])) (hxs b hb)]
  · rw [backSeg_concat, htail, TaskList.prevOf_of hold]
    rw [TaskList.prevOf_of hu] at hbackward
    refine ⟨hbackward.congr fun b hb => ?_, rfl⟩
    unfold TaskList.prevOf
    rw [hother b (hne b (by simp [hb])) (hxs b hb)]
  · by_cases hb : b = task
    · subst hb
      refine iff_of_false (by rw [htasks]; simp) fun hmem => hne b hmem rfl
    · have hlive := h.live b
      rw [List.mem_append, List.mem_singleton, or_iff_left hb] at hlive
      rw [← hlive]
      by_cases hba : b = a
      · subst hba
        simp [hold, hu]
      · rw [hother b hb hba]
  · -- the current task was another one, or becomes the head
    rw [hcurrent]
    by_cases htask : task = s.currentTask
    · rw [if_pos htask]
      cases xs with
      | nil => rw [seg_nil.mp hforward]; exact List.mem_singleton_self _
      | cons b rest => rw [hforward.1]; simp
    · rw [if_neg htask]
      have hmem := h.current (by simp)
      rw [List.mem_append, List.mem_singleton] at hmem
      exact hmem.resolve_right fun heq => htask heq.symm

/-! ### One operation -/

/-- A task that could be allocated goes to the end of the list. -/
theorem WellLinked.new {s : TaskList} {created : List Nat} (h : WellLinked s created) {task pageDirectory : Nat}
    (eip process : Nat) (htask : task ≠ 0) (hdead : s.tasks task = none) (hdir : pageDirectory ≠ 0) :
    ∃ s', taskNew task pageDirectory eip process s = .ok (task, s') ∧ WellLinked s' (created ++ [task]) := by
  rw [taskNew_ok eip process htask hdir]
  rcases List.eq_nil_or_concat created with rfl | ⟨xs, a, rfl⟩
  · refine ⟨_, ?_, wellLinked_single (t := initialTask pageDirectory eip process) h htask rfl rfl⟩
    have hhead : (s.put task (some (initialTask pageDirectory eip process))).taskHead = 0 := h.forward
    rw [Program.bind_apply, taskLink_empty task hhead]
    rfl
  · rw [List.concat_eq_append] at h ⊢
    obtain ⟨u, hu, _, _⟩ := h.last_task
    have hlast := h.tail_eq
    have hne : a ≠ task := by
      rintro rfl
      rw [hdead] at hu
      cases hu
    have hself : (s.put task (some (initialTask pageDirectory eip process))).tasks task =
      some (initialTask pageDirectory eip process) := by rw [put_tasks, if_pos rfl]
    have htail : (s.put task (some (initialTask pageDirectory eip process))).tasks s.taskTail = some u := by
      rw [put_tasks, ← hlast, if_neg hne, hu]
    have hlink := taskLink_behind (fun hzero => by
      have := h.head_eq_zero.mp hzero
      simp at this) hself htail (fun heq => hne (hlast.trans heq.symm))
    refine ⟨_, by rw [Program.bind_apply, hlink]; rfl, ?_⟩
    refine h.append (t := {initialTask pageDirectory eip process with prev := s.taskTail}) htask hdead ?_
      hlast.symm rfl rfl rfl rfl
    funext b
    simp only [put_tasks]
    by_cases hb : b = task
    · simp [hb]
    · simp [hb, ← hlast, hu]

/-- Freeing the last task removes it. -/
theorem WellLinked.freeLast {s : TaskList} {created : List Nat} (h : WellLinked s created) {task : Nat}
    (hlive : (s.tasks task).isSome) (hlast : task = s.taskTail) :
    ∃ s', taskFree task s = .ok (0, s') ∧ WellLinked s' (created.erase task) := by
  have hmem := (h.live task).mp hlive
  rcases List.eq_nil_or_concat created with rfl | ⟨xs, b, rfl⟩
  · cases hmem
  · rw [List.concat_eq_append] at h hmem ⊢
    obtain rfl : b = task := h.tail_eq.trans hlast.symm
    obtain ⟨t, ht, hnext, hback⟩ := h.last_task
    have hnot : b ∉ xs := fun hb => (List.nodup_append.mp h.nodup).2.2 b hb b (List.mem_singleton_self _) rfl
    rw [List.erase_append_right _ hnot, List.erase_cons_head, List.append_nil]
    rcases List.eq_nil_or_concat xs with rfl | ⟨ys, a, rfl⟩
    · have hcurrent := h.current (by simp)
      rw [List.nil_append, List.mem_singleton] at hcurrent
      refine ⟨_, taskFree_only ht hback.symm hnext h.forward.1.symm hlast hcurrent.symm,
        wellLinked_empty (fun c => ?_) rfl rfl⟩
      show (s.put b none).tasks c = none
      rw [put_tasks]
      by_cases hc : c = b
      · rw [if_pos hc]
      · rw [if_neg hc, ← Option.not_isSome_iff_eq_none, h.live c]
        simpa using hc
    · rw [List.concat_eq_append] at h hback hnot ⊢
      have hprev := (backSeg_concat.mp hback).2
      obtain ⟨p, hp⟩ := TaskList.live_task ((h.live a).mpr (by simp))
      have hne : b ≠ a := fun heq => hnot (by simp [heq])
      refine ⟨_, taskFree_last ht ?_ (hprev ▸ hp) (hprev ▸ hne) hnext ?_ hlast, h.removeLast ?_ rfl hprev.symm rfl⟩
      · rw [← hprev]
        rintro rfl
        exact h.nonnull (by simp)
      · cases ys with
        | nil => rw [h.forward.1]; exact hne
        | cons c rest => rw [h.forward.1]; exact fun heq => hnot (by simp [heq])
      · funext c
        simp only [put_tasks]
        by_cases hc : c = b
        · simp [hc]
        · simp [hc, ← hprev, hp]

theorem preserves_loadTask (task : Nat) (P : TaskList → Prop) : Program.Preserves (loadTask task) P := by
  intro s h
  unfold Program.wp loadTask
  cases s.tasks task with
  | none => trivial
  | some t => exact h

/-- Setting a task's `next` leaves every `prev`. -/
theorem preserves_setNext (task next : Nat) (q : Nat → Nat) (p : Nat → Prop) :
    Program.Preserves (do
      let t ← loadTask task
      storeTask task {t with next := next}) (fun s => ∀ b, p b → s.prevOf b = q b) := by
  intro s h
  rw [Program.wp_bind]
  unfold Program.wp loadTask
  cases ht : s.tasks task with
  | none => trivial
  | some t =>
    show Program.wp (storeTask task _) _ _ s
    rw [Program.wp_ok (storeTask_ok _ (by rw [ht]; rfl))]
    intro b hb
    rw [← h b hb]
    unfold TaskList.prevOf
    rw [put_tasks]
    by_cases hbt : b = task
    · simp [hbt, ht]
    · rw [if_neg hbt]

theorem preserves_taskGetNext (P : TaskList → Prop) : Program.Preserves taskGetNext P :=
  Program.preserves_get.bind fun _ => (preserves_loadTask _ P).bind fun _ =>
    .ite (Program.preserves_pure _) (Program.preserves_pure _)

/-- Freeing a task touches no other task's `prev`. -/
theorem taskFree_prevOf (s : TaskList) (task : Nat) :
    Program.wp (taskFree task) (fun _ s' => ∀ b, b ≠ task → s'.prevOf b = s.prevOf b) (fun _ => True) s := by
  have hremove : Program.Preserves (taskListRemove task) fun s' => ∀ b, b ≠ task → s'.prevOf b = s.prevOf b := by
    unfold taskListRemove
    refine .bind (preserves_loadTask _ _) fun t => .bind (.when (preserves_setNext _ _ _ _)) fun _ => ?_
    refine .bind (preserves_loadTask _ _) fun t => .bind Program.preserves_get fun _ => ?_
    refine .bind (.when (Program.preserves_modify fun _ h => h)) fun _ => .bind Program.preserves_get fun _ => ?_
    refine .bind (.when (Program.preserves_modify fun _ h => h)) fun _ => .bind Program.preserves_get fun _ => ?_
    exact .when (.bind (preserves_taskGetNext _) fun _ => Program.preserves_modify fun _ h => h)
  have hdrop : Program.Preserves (dropTask task) fun s' => ∀ b, b ≠ task → s'.prevOf b = s.prevOf b := by
    refine Program.preserves_modify fun s' h b hb => ?_
    rw [← h b hb]
    unfold TaskList.prevOf
    rw [put_tasks, if_neg hb]
  exact (preserves_loadTask _ _).bind
    (fun _ => hremove.bind fun _ => hdrop.bind fun _ => Program.preserves_pure _) s fun _ _ => rfl

/-- Freeing any other task leaves a pointer to it behind. -/
theorem WellLinked.freeOther {s s' : TaskList} {created : List Nat} (h : WellLinked s created) {task : Nat}
    (hlive : (s.tasks task).isSome) (hother : task ≠ s.taskTail) {r : Int} (hfree : taskFree task s = .ok (r, s')) :
    ¬ WellLinked s' (created.erase task) := by
  intro h'
  obtain ⟨xs, ys, rfl⟩ := List.append_of_mem ((h.live task).mp hlive)
  obtain ⟨_, hnodup, hapart⟩ := List.nodup_append.mp h.nodup
  have hnot : task ∉ xs := fun hx => hapart task hx task (List.mem_cons_self ..) rfl
  cases ys with
  | nil => exact hother h.tail_eq
  | cons b ys =>
    rw [List.erase_append_right _ hnot, List.erase_cons_head] at h'
    have hb : b ≠ task := by
      rintro rfl
      exact (List.nodup_cons.mp hnodup).1 (List.mem_cons_self ..)
    have hprev := (taskFree_prevOf s task).returned hfree b hb
    rw [h.backward.neighbour] at hprev
    rcases h'.backward.prev_mem with hzero | hmem
    · exact h.nonnull (by rw [← hzero, hprev]; simp)
    · rw [hprev] at hmem
      exact hnot hmem

/-- **An operation keeps the list well linked exactly when it is one that does**: a task
that could be allocated, a release of the last task, or a switch. -/
theorem WellLinked.step_iff {s : TaskHistory} (h : WellLinked s.list s.created) {op : TaskOp}
    (hlegal : s.Legal op) :
    (∃ t, s.step op = .ok t ∧ WellLinked t.list t.created) ↔ s.Keeps op := by
  unfold TaskHistory.step
  cases op with
  | new task pageDirectory eip process =>
    obtain ⟨hdead, hdir⟩ := hlegal
    by_cases htask : task = 0
    · subst htask
      have hnull : s.list.tasks 0 = none := by
        rw [← Option.not_isSome_iff_eq_none, h.live]
        exact h.nonnull
      simp [TaskOp.call, TaskHistory.Keeps, Program.bind_apply, taskNew_null _ _ _ hnull]
    · obtain ⟨s', hnew, hwell⟩ := h.new eip process htask (hdead.resolve_left htask) hdir
      refine iff_of_true ⟨⟨s', s.created ++ [task]⟩, ?_, hwell⟩ htask
      simp [TaskOp.call, TaskOp.created, Program.bind_apply, Program.pure_apply, hnew, htask]
  | free task =>
    by_cases hlast : task = s.list.taskTail
    · obtain ⟨s', hfree, hwell⟩ := h.freeLast hlegal hlast
      refine iff_of_true ⟨⟨s', s.created.erase task⟩, ?_, hwell⟩ hlast
      simp [TaskOp.call, TaskOp.created, Program.bind_apply, Program.pure_apply, hfree]
    · refine iff_of_false ?_ hlast
      rintro ⟨t, hstep, hwell⟩
      cases hfree : taskFree task s.list with
      | error e => simp [TaskOp.call, Program.bind_apply, hfree] at hstep
      | ok r =>
        simp only [TaskOp.call, TaskOp.created, Program.bind_apply, Program.pure_apply, hfree,
          Except.ok.injEq] at hstep
        subst hstep
        exact h.freeOther hlegal hlast hfree hwell
  | switch task =>
    obtain ⟨t, ht⟩ := TaskList.live_task hlegal
    refine iff_of_true ⟨⟨{s.list with currentTask := task}, s.created⟩, ?_,
      ⟨h.forward, h.backward, h.live, h.nodup, h.nonnull, fun _ => (h.live task).mp hlegal⟩⟩ trivial
    simp only [TaskOp.call, TaskOp.created, taskSwitch, Program.bind_apply, Program.pure_apply,
      Program.modify_apply, loadTask, ht]

/-- The invariant of the runs that keep it. -/
theorem WellLinked.of_run {s : TaskHistory} (hrun : TaskRun TaskHistory.Keeps s) : WellLinked s.list s.created := by
  refine hrun.invariant (I := fun s => WellLinked s.list s.created) (fun s hs => ?_) fun s op t h hok hstep => ?_
  · rw [hs]
    exact wellLinked_empty (fun _ => rfl) rfl rfl
  · obtain ⟨t', hstep', hwell⟩ := (h.step_iff hok.1).mpr hok.2
    rw [hstep'] at hstep
    cases hstep
    exact hwell

/-- **The task list is well linked in every state of a run** in which every task could be
allocated and every task freed is the last, and from such a state an operation goes
through and leaves the list well linked exactly when it is of that kind again. -/
theorem taskList_wellLinked {s : TaskHistory} (hrun : TaskRun TaskHistory.Keeps s) :
    WellLinked s.list s.created ∧ ∀ op, s.Legal op →
      ((∃ t, s.step op = .ok t ∧ WellLinked t.list t.created) ↔ s.Keeps op) :=
  ⟨.of_run hrun, fun _ hlegal => (WellLinked.of_run hrun).step_iff hlegal⟩

/-- A task created, and a second one created and freed: the list holds the first. -/
theorem taskList_wellLinked_two :
    ∃ s : TaskHistory, s.created = [0x1000] ∧ WellLinked s.list s.created := by
  have h1 := (TaskRun.empty TaskHistory.Keeps).next (.new 0x1000 0x9000 0x400000 0x5000)
    ⟨.inr rfl, by decide⟩ (by decide : 0x1000 ≠ 0) rfl
  have h2 := h1.next (.new 0x2000 0xa000 0x400000 0x6000) ⟨.inr rfl, by decide⟩ (by decide : 0x2000 ≠ 0) rfl
  have h3 := h2.next (.free 0x2000) rfl rfl rfl
  exact ⟨_, rfl, (taskList_wellLinked h3).1⟩

/-- **Freeing the first of two tasks** leaves the second pointing back at it. -/
theorem taskList_dangling_prev :
    ¬ ∀ s, TaskRun (fun _ _ => True) s →
      WellLinked s.list s.created ∧ ∀ op, s.Legal op → ∃ t, s.step op = .ok t := by
  intro h
  have h1 := (TaskRun.empty fun _ _ => True).next (.new 0x1000 0x9000 0x400000 0x5000)
    ⟨.inr rfl, by decide⟩ trivial rfl
  have h2 := h1.next (.new 0x2000 0xa000 0x400000 0x6000) ⟨.inr rfl, by decide⟩ trivial rfl
  have h3 := h2.next (.free 0x1000) rfl trivial rfl
  exact absurd (h _ h3).1.backward.1 (by decide)

end BasicOS

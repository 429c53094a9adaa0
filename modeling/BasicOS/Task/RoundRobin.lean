import BasicOS.Task.ListInvariant
import Mathlib.Data.List.Rotate

/-! The scheduler.

`task_next` goes to the next task of the list and from the last to the first. On a well
linked list `n` calls for `n` tasks are a full round (`wellLinked_round`): they go through
the tasks in the order they were created, cyclically from behind the current one, each
once, and leave the list as it was. Since a round changes nothing, tasks created between two
rounds are in the second (`roundRobin`). -/
namespace BasicOS
open Lib

def taskNext : Program Stop TaskList Nat := do
  let nextTask ← taskGetNext
  Program.when (nextTask = 0) (Program.stop (.panic "No more tasks to start!\n"))
  let _ ← taskSwitch nextTask
  -- `task_return(&next_task->registers)`
  return nextTask

/-- The tasks scheduled by `n` calls of `task_next`, one after the other. -/
def taskNextTimes : Nat → Program Stop TaskList (List Nat)
  | 0 => return []
  | n + 1 => do
    let task ← taskNext
    let rest ← taskNextTimes n
    return task :: rest

/-! ### One call -/

variable {s : TaskList} {created : List Nat}

/-- The list with the `i`-th task the current one, counted cyclically. -/
def TaskList.atTask (s : TaskList) (created : List Nat) (i : Nat) : TaskList :=
  {s with currentTask := created.getD (i % created.length) 0}

/-- The list read forwards, which is all the scheduler does. -/
structure ForwardLinked (s : TaskList) (created : List Nat) : Prop where
  forward : Seg s.nextOf s.taskHead created 0
  live : ∀ task ∈ created, (s.tasks task).isSome
  nonnull : 0 ∉ created

theorem WellLinked.forwardLinked (h : WellLinked s created) : ForwardLinked s created :=
  ⟨h.forward, fun _ => (h.live _).mpr, h.nonnull⟩

theorem getD_mod_mem (hne : created ≠ []) (i : Nat) : created.getD (i % created.length) 0 ∈ created := by
  have hlt := Nat.mod_lt i (List.length_pos_of_ne_nil hne)
  rw [List.getD_eq_getElem _ _ hlt]
  exact List.getElem_mem hlt

/-- The scheduler's next task is the cyclic successor of the current one. -/
theorem ForwardLinked.getNext (h : ForwardLinked s created) (hne : created ≠ []) (i : Nat) :
    taskGetNext (s.atTask created i) = .ok (created.getD ((i + 1) % created.length) 0, s.atTask created i) := by
  have hpos := List.length_pos_of_ne_nil hne
  have hlt := Nat.mod_lt i hpos
  obtain ⟨t, ht⟩ := TaskList.live_task (h.live _ (getD_mod_mem hne i))
  have hnext := TaskList.nextOf_of ht
  rw [List.getD_eq_getElem _ _ hlt] at hnext
  have hload : loadTask (s.atTask created i).currentTask (s.atTask created i) = .ok (t, s.atTask created i) :=
    loadTask_ok ht
  unfold taskGetNext
  rw [Program.bind_apply, Program.get_apply]
  simp only
  rw [Program.bind_apply, hload]
  simp only
  by_cases hlast : i % created.length + 1 < created.length
  · -- a task behind the current one
    have hsucc : (i + 1) % created.length = i % created.length + 1 := by
      rw [← Nat.mod_add_mod, Nat.mod_eq_of_lt hlast]
    have hlink := h.forward.link hlast
    rw [hnext] at hlink
    have hzero : t.next ≠ 0 := by
      rw [hlink]
      exact fun hzero => h.nonnull (by rw [← hzero]; exact List.getElem_mem _)
    rw [if_pos hzero, hsucc, List.getD_eq_getElem _ _ hlast, hlink]
    rfl
  · -- around the end of the list
    have hend : i % created.length + 1 = created.length := by omega
    have hsucc : (i + 1) % created.length = 0 := by rw [← Nat.mod_add_mod, hend, Nat.mod_self]
    have hlink : t.next = 0 := hnext.symm.trans (h.forward.last hend)
    have hhead : s.taskHead = created[0] := h.forward.first hpos
    rw [if_neg (not_not.mpr hlink), hsucc, List.getD_eq_getElem _ _ hpos, ← hhead]
    rfl

theorem ForwardLinked.next (h : ForwardLinked s created) (hne : created ≠ []) (i : Nat) :
    taskNext (s.atTask created i) =
      .ok (created.getD ((i + 1) % created.length) 0, s.atTask created (i + 1)) := by
  have hmem := getD_mod_mem hne (i + 1)
  have hzero : created.getD ((i + 1) % created.length) 0 ≠ 0 := fun hzero => h.nonnull (by rwa [hzero] at hmem)
  obtain ⟨t, ht⟩ := TaskList.live_task (h.live _ hmem)
  have hload : loadTask (created.getD ((i + 1) % created.length) 0) {s.atTask created i with
      currentTask := created.getD ((i + 1) % created.length) 0} = .ok (t, s.atTask created (i + 1)) := loadTask_ok ht
  unfold taskNext
  rw [Program.bind_apply, h.getNext hne]
  simp only
  rw [Program.when_false hzero, Program.bind_apply, Program.pure_apply]
  simp only
  unfold taskSwitch
  rw [Program.bind_apply, Program.bind_apply, Program.modify_apply]
  simp only
  rw [Program.bind_apply, hload]
  rfl

/-! ### Rounds -/

/-- Calls one after the other go through the tasks cyclically. -/
theorem ForwardLinked.nextTimes (h : ForwardLinked s created) (hne : created ≠ []) (n i : Nat) :
    taskNextTimes n (s.atTask created i) =
      .ok ((List.range n).map fun j => created.getD ((i + 1 + j) % created.length) 0, s.atTask created (i + n)) := by
  induction n generalizing i with
  | zero => rfl
  | succ n ih =>
    unfold taskNextTimes
    rw [Program.bind_apply, h.next hne]
    simp only
    rw [Program.bind_apply, ih]
    simp only
    rw [Program.pure_apply, List.range_succ_eq_map, List.map_cons, List.map_map, Nat.add_zero, Nat.add_assoc i 1 n,
      Nat.add_comm 1 n]
    congr 3
    apply List.map_congr_left
    intro j _
    simp only [Function.comp, Nat.succ_eq_add_one, Nat.add_assoc, Nat.add_comm 1]

/-- **A full round**: as many calls as there are tasks schedule them in the order they were
created, cyclically from behind the current one, each once and the current one last, and leave
the list as it was. -/
structure FullRound (s : TaskList) (created : List Nat) : Prop where
  round : taskNextTimes created.length s = .ok (created.rotate (created.idxOf s.currentTask + 1), s)
  once : ∀ task ∈ created, (created.rotate (created.idxOf s.currentTask + 1)).count task = 1
  last : (created.rotate (created.idxOf s.currentTask + 1)).getLast? = some s.currentTask

theorem wellLinked_round (h : WellLinked s created) (hne : created ≠ []) : FullRound s created := by
  have hpos := List.length_pos_of_ne_nil hne
  have hcurrent := h.current hne
  have hidx := List.idxOf_lt_length_of_mem hcurrent
  have hat : ∀ i, i % created.length = created.idxOf s.currentTask → s.atTask created i = s := by
    intro i hi
    unfold TaskList.atTask
    rw [hi, List.getD_eq_getElem _ _ hidx, List.getElem_idxOf hidx]
  have hrotate : ((List.range created.length).map fun j =>
      created.getD ((created.idxOf s.currentTask + 1 + j) % created.length) 0) =
      created.rotate (created.idxOf s.currentTask + 1) := by
    refine List.ext_getElem (by simp) fun j h1 h2 => ?_
    rw [List.getElem_map, List.getElem_range, List.getElem_rotate, List.getD_eq_getElem _ _ (Nat.mod_lt _ hpos)]
    simp only [Nat.add_comm j]
  refine ⟨?_, fun task htask => ?_, ?_⟩
  · have hround := h.forwardLinked.nextTimes hne created.length (created.idxOf s.currentTask)
    rw [hat _ (Nat.mod_eq_of_lt hidx), hat _ (by rw [Nat.add_mod_right, Nat.mod_eq_of_lt hidx]), hrotate] at hround
    exact hround
  · rw [(List.rotate_perm created _).count_eq, List.count_eq_one_of_mem h.nodup htask]
  · rw [List.getLast?_eq_getElem?, List.length_rotate, List.getElem?_rotate (by omega),
      show created.length - 1 + (created.idxOf s.currentTask + 1) = created.idxOf s.currentTask + created.length by omega,
      Nat.add_mod_right, Nat.mod_eq_of_lt hidx, List.getElem?_eq_getElem hidx, List.getElem_idxOf hidx]

/-- **Round robin**: in every state of a run the tasks created so far have a full round, and so
they do after whatever operation follows it, a task created between two rounds included. -/
theorem roundRobin {s : TaskHistory} (hrun : TaskRun TaskHistory.Keeps s) (hne : s.created ≠ []) :
    FullRound s.list s.created ∧ ∀ op, s.Legal op → s.Keeps op →
      ∃ t, s.step op = .ok t ∧ (t.created ≠ [] → FullRound t.list t.created) := by
  have hwell := WellLinked.of_run hrun
  refine ⟨wellLinked_round hwell hne, fun op hlegal hkeeps => ?_⟩
  obtain ⟨t, hstep, hwell⟩ := (hwell.step_iff hlegal).mpr hkeeps
  exact ⟨t, hstep, fun hne' => wellLinked_round hwell hne'⟩

/-- Two tasks, the second of them current. -/
theorem roundRobin_two : ∃ s : TaskHistory, s.created = [0x1000, 0x2000] ∧ s.list.currentTask = 0x2000 ∧
    FullRound s.list s.created := by
  have h1 := (TaskRun.empty TaskHistory.Keeps).next (.new 0x1000 0x9000 0x400000 0x5000)
    ⟨.inr rfl, by decide⟩ (by decide : 0x1000 ≠ 0) rfl
  have h2 := h1.next (.new 0x2000 0xa000 0x400000 0x6000) ⟨.inr rfl, by decide⟩ (by decide : 0x2000 ≠ 0) rfl
  have h3 := h2.next (.switch 0x2000) rfl trivial rfl
  exact ⟨_, rfl, rfl, (roundRobin h3 (List.cons_ne_nil _ _)).1⟩

end BasicOS

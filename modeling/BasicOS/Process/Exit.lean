import BasicOS.Task.RoundRobin
import BasicOS.Process.Residents

/-! The turn after an exit.

`sys_exit` and the fault handlers terminate the running process and schedule the next task.
Freeing the running task has already made its cyclic successor the current one
(`task_list_remove`), and `task_next` then goes on from there: the successor's turn is
skipped, unless it is the only task left (`exit_turn_iff`). -/
namespace BasicOS
open Lib Program

variable {H : Type} {A : Allocator H}

/-! ### Exiting -/

/-- `sys_exit`, with the task that is resumed. -/
def sysExit (A : Allocator H) : Program Stop (Kernel H) Nat := do
  let s ← get
  let task ← onTasks (loadTask s.taskList.currentTask)
  let _ ← processTerminate A task.process
  onTasks taskNext

/-- `interrupt_handlers_terminate_current_process`, the end of every fault handler. -/
def interruptHandlersTerminateCurrentProcess (A : Allocator H) : Program Stop (Kernel H) Nat := do
  let s ← get
  let task ← onTasks (loadTask s.taskList.currentTask)
  let _ ← processTerminate A task.process
  onTasks taskNext

/-- The task whose turn is after that of `task`. -/
def cyclicNext (created : List Nat) (task : Nat) : Nat :=
  created.getD ((created.idxOf task + 1) % created.length) 0

/-! ### The list without the running task -/

section List

variable {s : TaskList} {xs ys : List Nat} {task : Nat}

/-- The list after `task_free`. -/
def TaskList.without (s : TaskList) (task : Nat) (t : Task) (tasks : Nat → Option Task) : TaskList where
  tasks := Function.update tasks task none
  taskHead := if task = s.taskHead then t.next else s.taskHead
  taskTail := if task = s.taskTail then t.prev else s.taskTail
  currentTask :=
    if task = s.currentTask then
      if t.next ≠ 0 then t.next else if task = s.taskHead then t.next else s.taskHead
    else s.currentTask

theorem when_setHead (c : Prop) [Decidable c] (a : Nat) (s : TaskList) :
    (Program.when c (modify fun s => {s with taskHead := a}) : Program Stop TaskList Unit) s =
      .ok ((), {s with taskHead := if c then a else s.taskHead}) := by
  unfold Program.when
  split
  · rfl
  · rfl

theorem when_setTail (c : Prop) [Decidable c] (a : Nat) (s : TaskList) :
    (Program.when c (modify fun s => {s with taskTail := a}) : Program Stop TaskList Unit) s =
      .ok ((), {s with taskTail := if c then a else s.taskTail}) := by
  unfold Program.when
  split
  · rfl
  · rfl

/-- Freeing a task once the one in front of it has been linked to the one behind it. -/
theorem taskFree_relinked {t : Task} {tasks : Nat → Option Task} (ht : s.tasks task = some t)
    (hrelink : (Program.when (t.prev ≠ 0) do
      let p ← loadTask t.prev
      storeTask t.prev {p with next := t.next}) s = .ok ((), {s with tasks := tasks}))
    (ht' : tasks task = some t) : taskFree task s = .ok (0, s.without task t tasks) := by
  have hremove : taskListRemove task s = .ok ((), {s.without task t tasks with tasks := tasks}) := by
    unfold taskListRemove taskGetNext TaskList.without
    rw [bind_apply, loadTask_ok ht]
    simp only
    rw [bind_apply, hrelink]
    simp only
    rw [bind_apply, loadTask_ok (s := {s with tasks := tasks}) ht']
    simp only
    rw [bind_apply, get_apply]
    simp only
    rw [bind_apply, when_setHead]
    simp only
    rw [bind_apply, get_apply]
    simp only
    rw [bind_apply, when_setTail]
    simp only
    rw [bind_apply, get_apply]
    simp only
    by_cases hcurrent : task = s.currentTask
    · have hload : loadTask s.currentTask ⟨tasks, if task = s.taskHead then t.next else s.taskHead,
          if task = s.taskTail then t.prev else s.taskTail, s.currentTask⟩ = .ok (t, _) := loadTask_ok (hcurrent ▸ ht')
      rw [when_true hcurrent, bind_apply, bind_apply, get_apply]
      simp only
      rw [bind_apply, hload, if_pos hcurrent]
      simp only
      by_cases hnext : t.next ≠ 0
      · rw [if_pos hnext, if_pos hnext]
        rfl
      · rw [if_neg hnext, if_neg hnext]
        rfl
    · rw [when_false hcurrent, if_neg hcurrent]
      rfl
  unfold taskFree dropTask
  rw [bind_apply, loadTask_ok ht]
  simp only
  rw [bind_apply, hremove]
  rfl

theorem without_other {t : Task} {tasks : Nat → Option Task} {b : Nat} (hb : b ≠ task) :
    (s.without task t tasks).tasks b = tasks b := Function.update_of_ne hb ..

/-- Where the list is left when the running task is freed. -/
theorem without_atTask {t : Task} {tasks : Nat → Option Task} (hcurrent : s.currentTask = task)
    (hnext : Seg s.nextOf t.next ys 0) (hnonnull : 0 ∉ ys) (hhead : ∀ x zs, xs = x :: zs → x = s.taskHead ∧ task ≠ s.taskHead)
    (hmore : xs ++ ys ≠ []) :
    s.without task t tasks = (s.without task t tasks).atTask (xs ++ ys) xs.length := by
  have hcurrent' : (s.without task t tasks).currentTask = (xs ++ ys).getD (xs.length % (xs ++ ys).length) 0 := by
    unfold TaskList.without
    simp only [if_pos hcurrent.symm]
    cases ys with
    | nil =>
      -- the last task: around to the head
      have hzero : t.next = 0 := hnext
      cases xs with
      | nil => exact absurd rfl hmore
      | cons x zs =>
        obtain ⟨rfl, hne⟩ := hhead x zs rfl
        rw [if_neg (not_not.mpr hzero), if_neg hne, List.append_nil, Nat.mod_self]
        rfl
    | cons y rest =>
      have hy : t.next = y := hnext.1
      have hne : t.next ≠ 0 := fun hzero => hnonnull (by rw [← hzero, hy]; exact List.mem_cons_self ..)
      rw [if_pos hne, Nat.mod_eq_of_lt (by simp), List.getD_append_right _ _ _ _ (Nat.le_refl _), Nat.sub_self, hy]
      rfl
  unfold TaskList.atTask
  rw [← hcurrent']

/-- The tasks in front of one of the list and behind it. -/
theorem WellLinked.around (h : WellLinked s (xs ++ task :: ys)) : (∀ b ∈ xs, b ≠ task) ∧ (∀ b ∈ ys, b ≠ task) ∧
    (∀ b ∈ xs ++ ys, (s.tasks b).isSome) ∧ 0 ∉ xs ++ ys := by
  obtain ⟨_, hnodup, hapart⟩ := List.nodup_append.mp h.nodup
  have hkept : ∀ b ∈ xs ++ ys, b ∈ xs ++ task :: ys := by
    intro b hb
    rcases List.mem_append.mp hb with hb | hb
    · exact List.mem_append_left _ hb
    · exact List.mem_append_right _ (List.mem_cons_of_mem _ hb)
  exact ⟨fun b hb => hapart b hb task (List.mem_cons_self ..), fun b hb heq => (List.nodup_cons.mp hnodup).1 (heq ▸ hb),
    fun b hb => (h.live b).mpr (hkept b hb), fun hzero => h.nonnull (hkept 0 hzero)⟩

/-- The running task is the head: the list begins with the task behind it. -/
theorem WellLinked.freeHead (h : WellLinked s (task :: ys)) (hcurrent : s.currentTask = task) (hmore : ys ≠ []) :
    ∃ s', taskFree task s = .ok (0, s') ∧ ForwardLinked s' ys ∧ s' = s'.atTask ys 0 := by
  obtain ⟨t, ht⟩ := TaskList.live_task ((h.live task).mpr (List.mem_cons_self ..))
  obtain ⟨_, hys, hlive, hnonnull⟩ := @WellLinked.around s [] ys task h
  have hhead : s.taskHead = task := h.forward.1
  have hbehind : Seg s.nextOf t.next ys 0 := by
    rw [← TaskList.nextOf_of ht]
    exact h.forward.2
  have hprev : t.prev = 0 := by
    rw [← TaskList.prevOf_of ht]
    exact h.backward.1
  refine ⟨_, taskFree_relinked ht (when_false (not_not.mpr hprev) _ ▸ rfl) ht, ⟨?_, fun b hb => ?_, hnonnull⟩,
    @without_atTask s [] ys task _ _ hcurrent hbehind hnonnull (fun x zs hx => nomatch hx) hmore⟩
  · show Seg _ (if task = s.taskHead then t.next else s.taskHead) ys 0
    rw [if_pos hhead.symm]
    refine hbehind.congr fun b hb => ?_
    unfold TaskList.nextOf
    rw [without_other (hys b hb)]
  · rw [without_other (hys b hb)]
    exact hlive b hb

/-- A segment whose last task is linked on to another. -/
theorem seg_relinked {t u : Task} {zs : List Nat} {p : Nat} (hfront : Seg s.nextOf s.taskHead (zs ++ [p]) task)
    (hbehind : Seg s.nextOf t.next ys 0) (hxs : ∀ b ∈ zs ++ [p], b ≠ task) (hys : ∀ b ∈ ys, b ≠ task)
    (hzs : ∀ b ∈ zs, b ≠ p) (hysp : ∀ b ∈ ys, b ≠ p) :
    Seg (s.without task t (Function.update s.tasks p (some {u with next := t.next}))).nextOf s.taskHead
      (zs ++ [p] ++ ys) 0 := by
  refine seg_append.mpr ⟨t.next, seg_concat.mpr ⟨(seg_concat.mp hfront).1.congr fun b hb => ?_, ?_⟩,
    hbehind.congr fun b hb => ?_⟩
  · unfold TaskList.nextOf
    rw [without_other (hxs b (List.mem_append_left _ hb)), Function.update_of_ne (hzs b hb)]
  · unfold TaskList.nextOf
    rw [without_other (hxs p (by simp)), Function.update_self]
  · unfold TaskList.nextOf
    rw [without_other (hys b hb), Function.update_of_ne (hysp b hb)]

/-- The running task has one in front, which is linked to the one behind. -/
theorem WellLinked.freeBehind {zs : List Nat} {p : Nat} (h : WellLinked s (zs ++ [p] ++ task :: ys))
    (hcurrent : s.currentTask = task) : ∃ s', taskFree task s = .ok (0, s') ∧ ForwardLinked s' (zs ++ [p] ++ ys) ∧
      s' = s'.atTask (zs ++ [p] ++ ys) (zs ++ [p]).length := by
  obtain ⟨t, ht⟩ := TaskList.live_task ((h.live task).mpr (by simp))
  obtain ⟨hxs, hys, hlive, hnonnull⟩ := h.around
  obtain ⟨m, hfront, rfl, hbehind⟩ := seg_append.mp h.forward
  rw [TaskList.nextOf_of ht] at hbehind
  obtain ⟨hnodup, _, hapart⟩ := List.nodup_append.mp h.nodup
  have hzs : ∀ b ∈ zs, b ≠ p := fun b hb => (List.nodup_append.mp hnodup).2.2 b hb p (List.mem_singleton_self _)
  have hysp : ∀ b ∈ ys, b ≠ p := fun b hb heq => hapart p (by simp) b (List.mem_cons_of_mem _ hb) heq.symm
  have hprev : t.prev = p := by
    have hneighbour := h.backward
    rw [List.append_assoc] at hneighbour
    rw [← TaskList.prevOf_of ht]
    exact hneighbour.neighbour
  obtain ⟨u, hu⟩ := TaskList.live_task (hlive p (by simp))
  have hrelink : (Program.when (t.prev ≠ 0) do
      let p ← loadTask t.prev
      storeTask t.prev {p with next := t.next}) s =
      .ok ((), {s with tasks := Function.update s.tasks p (some {u with next := t.next})}) := by
    have hp : p ≠ 0 := fun hzero => hnonnull (by simp [← hzero])
    rw [hprev, when_true hp, bind_apply, loadTask_ok hu]
    exact storeTask_ok _ (by rw [hu]; rfl)
  have hhead : ∀ x rest, zs ++ [p] = x :: rest → x = s.taskHead ∧ m ≠ s.taskHead := by
    intro x rest hx
    rw [hx] at hfront hxs
    have hx' : s.taskHead = x := hfront.1
    exact ⟨hx'.symm, fun hm => hxs x (List.mem_cons_self ..) (hx'.symm.trans hm.symm)⟩
  have hne : ¬ m = s.taskHead := by
    obtain ⟨x, rest, hx⟩ := List.exists_cons_of_ne_nil (List.append_ne_nil_of_right_ne_nil zs (List.cons_ne_nil p []))
    exact (hhead x rest hx).2
  have hmp : m ≠ p := (hxs p (by simp)).symm
  refine ⟨_, taskFree_relinked ht hrelink (by rw [Function.update_of_ne hmp]; exact ht), ⟨?_, fun b hb => ?_, hnonnull⟩,
    without_atTask hcurrent hbehind (fun hzero => hnonnull (List.mem_append_right _ hzero)) hhead (by simp)⟩
  · show Seg _ (if m = s.taskHead then t.next else s.taskHead) _ 0
    rw [if_neg hne]
    exact seg_relinked hfront hbehind hxs hys hzs hysp
  · have hbm : b ≠ m := by
      rcases List.mem_append.mp hb with hb | hb
      · exact hxs b hb
      · exact hys b hb
    rw [without_other hbm]
    by_cases hbp : b = p
    · rw [hbp, Function.update_self]
      rfl
    · rw [Function.update_of_ne hbp]
      exact hlive b hb

/-- **Freeing the running task** takes it out of the list read forwards, and its cyclic successor
is the current one. -/
theorem WellLinked.freeCurrent (h : WellLinked s (xs ++ task :: ys)) (hcurrent : s.currentTask = task)
    (hmore : xs ++ ys ≠ []) : ∃ s', taskFree task s = .ok (0, s') ∧ ForwardLinked s' (xs ++ ys) ∧
      s' = s'.atTask (xs ++ ys) xs.length := by
  rcases List.eq_nil_or_concat xs with rfl | ⟨zs, p, rfl⟩
  · exact h.freeHead hcurrent hmore
  · rw [List.concat_eq_append] at *
    exact h.freeBehind hcurrent

/-- The cyclic successor, in the list without the task. -/
theorem cyclicNext_eq (hxs : task ∉ xs) (hmore : xs ++ ys ≠ []) :
    cyclicNext (xs ++ task :: ys) task = (xs ++ ys).getD (xs.length % (xs ++ ys).length) 0 := by
  unfold cyclicNext
  rw [List.idxOf_append_of_notMem hxs, List.idxOf_cons_self, Nat.add_zero]
  cases ys with
  | nil =>
    have hlength : (xs ++ [task]).length = xs.length + 1 := by rw [List.length_append, List.length_singleton]
    rw [hlength, Nat.mod_self, List.append_nil, Nat.mod_self]
    cases xs with
    | nil => exact absurd rfl hmore
    | cons x rest => rfl
  | cons y rest =>
    rw [Nat.mod_eq_of_lt (by simp), Nat.mod_eq_of_lt (by simp), List.getD_append_right _ _ _ _ (by omega),
      List.getD_append_right _ _ _ _ (Nat.le_refl _), Nat.add_sub_cancel_left, Nat.sub_self]
    rfl

/-- Two turns on are one turn on in a list of one task only. -/
theorem getD_succ_iff (hnodup : xs.Nodup) (hne : xs ≠ []) (i : Nat) :
    xs.getD ((i + 1) % xs.length) 0 = xs.getD (i % xs.length) 0 ↔ xs.length = 1 := by
  have hpos := List.length_pos_of_ne_nil hne
  rw [List.getD_eq_getElem _ _ (Nat.mod_lt _ hpos), List.getD_eq_getElem _ _ (Nat.mod_lt _ hpos),
    hnodup.getElem_inj_iff, ← Nat.mod_add_mod]
  have hlt := Nat.mod_lt i hpos
  generalize i % xs.length = k at *
  constructor
  · intro h
    by_contra hmore
    by_cases hlast : k + 1 < xs.length
    · rw [Nat.mod_eq_of_lt hlast] at h
      omega
    · rw [show k + 1 = xs.length by omega, Nat.mod_self] at h
      omega
  · intro hone
    rw [hone, Nat.mod_one]
    omega

/-- The turn after the running task has been freed. -/
theorem WellLinked.turn_after_free {created : List Nat} (h : WellLinked s created) (htwo : 2 ≤ created.length) :
    ∃ s' next s'', taskFree s.currentTask s = .ok (0, s') ∧ taskNext s' = .ok (next, s'') ∧
      (next = cyclicNext created s.currentTask ↔ created.length = 2) := by
  have hmem := h.current (List.ne_nil_of_length_pos (by omega))
  obtain ⟨xs, ys, hsplit⟩ := List.append_of_mem hmem
  generalize hcurrent : s.currentTask = task at *
  subst hsplit
  have hmore : xs ++ ys ≠ [] := by
    intro hnil
    rw [List.append_eq_nil_iff] at hnil
    rw [hnil.1, hnil.2, List.nil_append, List.length_singleton] at htwo
    omega
  obtain ⟨hnodup, hnodup', hapart⟩ := List.nodup_append.mp h.nodup
  have hrest : (xs ++ ys).Nodup := h.nodup.sublist (List.Sublist.append (List.Sublist.refl xs)
    (List.sublist_cons_self task ys))
  obtain ⟨s', hfree, hlinked, hat⟩ := h.freeCurrent hcurrent hmore
  have hnext := hlinked.next hmore xs.length
  rw [← hat] at hnext
  refine ⟨s', _, _, hfree, hnext, ?_⟩
  rw [cyclicNext_eq (fun hx => hapart task hx task (List.mem_cons_self ..) rfl) hmore, getD_succ_iff hrest hmore]
  simp only [List.length_append, List.length_cons]
  omega

end List

/-! ### The process of the running task -/

variable {s : Kernel H} {p : Nat} {P : Process} {created : List Nat}

/-- Mapping in a live task's directory changes memory only. -/
theorem mapInTask_returns {task : Nat} (hlive : (s.taskList.tasks task).isSome) (vAddr pAddr pAddrEnd : Nat)
    (flags : Int) :
    wp (mapInTask task vAddr pAddr pAddrEnd flags) (fun _ t => ∃ ram, t = s.withRam ram) (fun _ => False) s := by
  obtain ⟨T, hT⟩ := Option.isSome_iff_exists.mp hlive
  unfold mapInTask onRam
  rw [wp_bind, wp_onTasks_loadTask hT, wp_zoom]
  exact ⟨_, rfl⟩

theorem processFree_slotsOnly (hP : s.process p = some P) (hlive : (s.taskList.tasks P.task).isSome) (ptr : Nat) :
    wp (processFree A p ptr) (fun _ t => SlotsOnly s t p) (fun _ => False) s := by
  unfold processFree
  rw [wp_bind, wp_loadProcess hP]
  split
  · exact SlotsOnly.refl s p
  · rename_i i _
    refine wp.bind (mapInTask_returns hlive ..) fun res t ht => ?_
    obtain ⟨ram, rfl⟩ := ht
    rw [wp_when]
    refine ⟨fun _ => ?_, fun _ => slotsOnly_withRam s ram p⟩
    have hP' : (s.withRam ram).process p = some P := hP
    rw [wp_bind, wp_loadProcess hP', wp_bind, wp_storeProcess hP']
    exact (slotsOnly_putAllocation hP ram i ⟨0, 0⟩).trans (slotsOnly_withRam _ _ p)

theorem terminalAllocations_slotsOnly (hP : s.process p = some P) (hlive : (s.taskList.tasks P.task).isSome) (n : Nat) :
    wp (terminalAllocations A p n) (fun _ t => SlotsOnly s t p) (fun _ => False) s := by
  induction n with
  | zero => exact SlotsOnly.refl s p
  | succ n ih =>
    refine wp.bind ih fun _ t hslots => ?_
    obtain ⟨a, hself⟩ := hslots.self P hP
    rw [wp_bind, wp_loadProcess hself, wp_when]
    refine ⟨fun _ => ?_, fun _ => hslots⟩
    refine (processFree_slotsOnly hself ?_ _).mono (fun _ u hu => hslots.trans hu) fun _ h => h
    rw [hslots.taskList]
    exact hlive

/-- Unloading a process changes memory and its `struct elf_file`. -/
theorem processUnloadProcess_returns (hP : s.process p = some P)
    (helf : P.filetype = processFormatElf → P.ptr ≠ 0 → (s.elfFile P.ptr).isSome) :
    wp (processUnloadProcess A p) (fun _ t => ∃ ram elfFile, t = {s.withRam ram with elfFile := elfFile})
      (fun _ => False) s := by
  unfold processUnloadProcess
  rw [wp_bind, wp_loadProcess hP]
  split
  · exact ⟨_, _, rfl⟩
  · split
    · rename_i hformat
      unfold elfClose
      rw [wp_bind, wp_when]
      refine ⟨fun hptr => ?_, fun _ => ⟨s.ram, s.elfFile, rfl⟩⟩
      obtain ⟨f, hf⟩ := Option.isSome_iff_exists.mp (helf hformat hptr)
      rw [wp_bind, wp_loadElfFile hf]
      exact ⟨_, _, rfl⟩
    · exact ⟨s.ram, s.elfFile, rfl⟩

theorem freeTables_returns (page n : Nat) (r : Ram H) : wp (freeTables A page n) (fun _ _ => True)
    (fun _ => False) r := by
  induction n with
  | zero => trivial
  | succ n ih => exact wp.bind ih fun _ _ _ => trivial

attribute [local irreducible] freeTables

theorem pagingFree4gb_returns (page : Nat) (r : Ram H) :
    wp (pagingFree4gb A page) (fun _ _ => True) (fun _ => False) r :=
  wp.bind (freeTables_returns page pagingTotalTableEntriesPerDirectory r) fun _ _ _ => trivial

attribute [local irreducible] pagingFree4gb

/-- Freeing a live task that can be taken out of the list. -/
theorem freeTask_returns {task : Nat} (tasks : TaskList) (hlive : (s.taskList.tasks task).isSome)
    (hfree : taskFree task s.taskList = .ok (0, tasks)) :
    wp (freeTask A task) (fun _ t => ∃ ram, t = {s.withRam ram with taskList := tasks}) (fun _ => False) s := by
  obtain ⟨T, hT⟩ := Option.isSome_iff_exists.mp hlive
  unfold freeTask
  rw [wp_bind, wp_onTasks_loadTask hT]
  refine wp.bind (wp.onRam (pagingFree4gb_returns T.pageDirectory s.ram)) fun _ t ht => ?_
  obtain ⟨ram, rfl, _⟩ := ht
  unfold onTasks
  rw [wp_bind, wp_zoom]
  exact (wp_ok hfree).mpr ⟨_, rfl⟩

/-! ### The next turn -/

/-- The running task is that of a process in the table, which is not the only one there, and can
be unloaded. -/
structure Running (s : Kernel H) (p : Nat) (P : Process) : Prop where
  running : ∃ t, s.taskList.tasks s.taskList.currentTask = some t ∧ t.process = p
  process : s.process p = some P
  task : P.task = s.taskList.currentTask
  slot : P.id < basicOSMaxProcesses
  elfFile : P.filetype = processFormatElf → P.ptr ≠ 0 → (s.elfFile P.ptr).isSome
  other : ∃ i, i < basicOSMaxProcesses ∧ i ≠ P.id ∧ s.processes i ≠ 0

attribute [local irreducible] terminalAllocations freeTask processUnlink processUnloadProcess

/-- Terminating the running process frees its task. -/
theorem Running.terminates {tasks : TaskList} (h : Running s p P)
    (hfree : taskFree s.taskList.currentTask s.taskList = .ok (0, tasks)) :
    wp (processTerminate A p) (fun _ t => t.taskList = tasks) (fun _ => False) s := by
  obtain ⟨T, hT, _⟩ := h.running
  have hlive : (s.taskList.tasks P.task).isSome := by
    rw [h.task, hT]
    rfl
  unfold processTerminate processTerminalAllocations
  rw [wp_bind, wp_bind]
  refine (terminalAllocations_slotsOnly h.process hlive _).mono (fun _ s₁ hslots => ?_) fun _ h => h
  obtain ⟨a, hself⟩ := hslots.self P h.process
  rw [wp_pure, if_neg (by decide)]
  have helf : P.filetype = processFormatElf → P.ptr ≠ 0 → (s₁.elfFile P.ptr).isSome := by
    rw [hslots.elfFile]
    exact h.elfFile
  refine wp.bind (processUnloadProcess_returns hself helf) fun res t ht => ?_
  obtain ⟨ram, elfFile, rfl⟩ := ht
  rw [wp_bind]
  refine (wp_loadProcess (by exact hself)).mpr ?_
  rw [wp_bind, show onRam (kfree A P.stack) = modify (fun s => s.withRam (released A P.stack s.ram)) from rfl,
    wp_modify]
  have htasks : s₁.taskList = s.taskList := hslots.taskList
  refine wp.bind (freeTask_returns tasks ?_ ?_) fun _ t ht => ?_
  · show (s₁.taskList.tasks P.task).isSome
    rw [htasks]
    exact hlive
  · show taskFree P.task s₁.taskList = _
    rw [htasks, h.task]
    exact hfree
  obtain ⟨ram', rfl⟩ := ht
  refine wp.bind ((processUnlink_frame (by exact hself)).mono (fun _ _ h => h) fun _ hstopped => ?_) fun _ t ht =>
    ht.2.1
  rcases hstopped with hslot | ⟨_, hnone⟩
  · exact absurd h.slot (Nat.not_lt.mpr hslot)
  · obtain ⟨i, hi, hne, hother⟩ := h.other
    refine hother ?_
    rw [← hslots.processes]
    exact hnone i hi hne

/-- An exit of the running task, by the system call or by a fault. -/
def IsExit (A : Allocator H) (exit : Program Stop (Kernel H) Nat) : Prop :=
  exit = sysExit A ∨ exit = interruptHandlersTerminateCurrentProcess A

/-- The exit schedules a task, and which one. -/
theorem Running.exit_turn (h : Running s p P) (hlist : WellLinked s.taskList created) (htwo : 2 ≤ created.length) :
    ∃ next t, sysExit A s = .ok (next, t) ∧ (next = cyclicNext created s.taskList.currentTask ↔
      created.length = 2) := by
  obtain ⟨tasks, next, tasks', hfree, hnext, hiff⟩ := hlist.turn_after_free htwo
  obtain ⟨T, hT, hprocess⟩ := h.running
  have hrun : wp (sysExit A) (fun n _ => n = next) (fun _ => False) s := by
    unfold sysExit
    rw [wp_bind, wp_get, wp_bind, wp_onTasks_loadTask hT, wp_bind, hprocess]
    refine (h.terminates hfree).mono (fun _ t ht => ?_) fun _ h => h
    unfold onTasks
    rw [wp_zoom, ht]
    exact (wp_ok hnext).mpr rfl
  obtain ⟨n, t, hok, rfl⟩ := hrun.returns
  exact ⟨n, t, hok, hiff⟩

/-- **The exit does not skip a turn exactly when** it leaves one task: the task scheduled next is
the cyclic successor of the one that exits just when there were two. -/
theorem exit_turn_iff {exit : Program Stop (Kernel H) Nat} (hexit : IsExit A exit) (h : Running s p P)
    (hlist : WellLinked s.taskList created) (htwo : 2 ≤ created.length) :
    ∃ next t, exit s = .ok (next, t) ∧ (next = cyclicNext created s.taskList.currentTask ↔ created.length = 2) := by
  rcases hexit with rfl | rfl
  · exact h.exit_turn hlist htwo
  · exact h.exit_turn hlist htwo

/-! ### Lists of two and three tasks -/

/-- The current task is that of a flat program in slot 0, and slot 1 is taken too. -/
def exitKernel (tasks : TaskList) : Kernel Ladder where
  files := noFiles
  taskList := tasks
  process := fun p =>
    if p = 0x10000 then some {zeroProcess with task := tasks.currentTask, filetype := processFormatFbin} else none
  elfFile := fun _ => none
  processes := fun i => if i = 0 then 0x10000 else if i = 1 then 0x20000 else 0
  currentProcess := 0x10000

theorem exitKernel_running {tasks : TaskList} (h : ∃ t, tasks.tasks tasks.currentTask = some t ∧ t.process = 0x10000) :
    Running (exitKernel tasks) 0x10000 {zeroProcess with task := tasks.currentTask, filetype := processFormatFbin} :=
  ⟨h, rfl, rfl, (by decide : 0 < basicOSMaxProcesses), fun hformat => absurd hformat (by decide : ¬ 1 = 0),
    1, (by decide : 1 < basicOSMaxProcesses), Nat.one_ne_zero, (by decide : 0x20000 ≠ 0)⟩

/-- Two tasks: the other one is next. -/
theorem exit_turn_two : ∃ (s : Kernel Ladder) (created : List Nat), created = [0x1000, 0x2000] ∧
    ∃ next t, sysExit ladder s = .ok (next, t) ∧ (next = cyclicNext created s.taskList.currentTask ↔
      created.length = 2) := by
  have h1 := (TaskRun.empty TaskHistory.Keeps).next (.new 0x1000 0x9000 0x400000 0x10000)
    ⟨.inr rfl, by decide⟩ (by decide : 0x1000 ≠ 0) rfl
  have h2 := h1.next (.new 0x2000 0xa000 0x400000 0x20000) ⟨.inr rfl, by decide⟩ (by decide : 0x2000 ≠ 0) rfl
  have hlist := WellLinked.of_run h2
  exact ⟨exitKernel _, _, rfl, exit_turn_iff (.inl rfl) (exitKernel_running ⟨_, rfl, rfl⟩) hlist (by decide)⟩

theorem threeTasks : ∃ tasks, WellLinked tasks [0x1000, 0x2000, 0x3000] ∧
    ∃ t, tasks.tasks tasks.currentTask = some t ∧ t.process = 0x10000 := by
  have h1 := (TaskRun.empty TaskHistory.Keeps).next (.new 0x1000 0x9000 0x400000 0x10000)
    ⟨.inr rfl, by decide⟩ (by decide : 0x1000 ≠ 0) rfl
  have h2 := h1.next (.new 0x2000 0xa000 0x400000 0x20000) ⟨.inr rfl, by decide⟩ (by decide : 0x2000 ≠ 0) rfl
  have h3 := h2.next (.new 0x3000 0xb000 0x400000 0x30000) ⟨.inr rfl, by decide⟩ (by decide : 0x3000 ≠ 0) rfl
  exact ⟨_, WellLinked.of_run h3, _, rfl, rfl⟩

/-- **A turn skipped**: one of three tasks exits, and the successor of its successor is next. -/
theorem exit_skips_turn : ¬ ∀ (s : Kernel Ladder) (p : Nat) (P : Process) (created : List Nat), Running s p P →
    WellLinked s.taskList created → 2 ≤ created.length →
    ∃ t, sysExit ladder s = .ok (cyclicNext created s.taskList.currentTask, t) := by
  intro h
  obtain ⟨tasks, hlist, hcurrent⟩ := threeTasks
  obtain ⟨t, hright⟩ := h (exitKernel tasks) _ _ _ (exitKernel_running hcurrent) hlist (by decide)
  obtain ⟨next, t', hrun, hiff⟩ := (exitKernel_running hcurrent).exit_turn (A := ladder) hlist (by decide)
  rw [hright] at hrun
  cases hrun
  exact absurd (hiff.mp rfl) (by decide)

end BasicOS

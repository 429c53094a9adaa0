import BasicOS.Memory.KHeap
import BasicOS.Status

/-! The task list as `task.c` computes it.

`tasks` maps the address of every live `struct task` to its contents; following any
other address, null included, is a `fault`. `taskNew` and `taskFree` are the functions of
the same names with what their callees answered as arguments: the memory `kzalloc`
returned, the directory `_gen_paging_4gb` made and the entry point read from the
program. -/
namespace BasicOS
open Lib

abbrev bkeTaskUserDataSegment : Nat := 0x23
abbrev bkeTaskUserCodeSegment : Nat := 0x1B
abbrev bkeTaskProgramVirtualStackAddrStart : Nat := 0x3FF000
abbrev sizeofTask : Nat := 64

structure Registers where
  edi : Nat
  esi : Nat
  ebp : Nat
  ebx : Nat
  edx : Nat
  ecx : Nat
  eax : Nat
  eip : Nat
  cs : Nat
  eflags : Nat
  esp : Nat
  ss : Nat
deriving DecidableEq, Repr

structure Task where
  pageDirectory : Nat
  registers : Registers
  process : Nat
  prev : Nat
  next : Nat
deriving DecidableEq, Repr

structure TaskList where
  tasks : Nat → Option Task
  taskHead : Nat
  taskTail : Nat
  currentTask : Nat

/-- A `struct task` after `memset(task, 0, sizeof(struct task))`. -/
def zeroTask : Task := ⟨0, ⟨0, 0, 0, 0, 0, 0, 0, 0, 0, 0, 0, 0⟩, 0, 0, 0⟩

def TaskList.put (s : TaskList) (task : Nat) (t : Option Task) : TaskList :=
  {s with tasks := Function.update s.tasks task t}

/-! ### Fields of a task -/

def loadTask (task : Nat) : Program Stop TaskList Task := fun s =>
  match s.tasks task with
  | some t => .ok (t, s)
  | none => .error .fault

def storeTask (task : Nat) (t : Task) : Program Stop TaskList Unit := fun s =>
  match s.tasks task with
  | some _ => .ok ((), s.put task (some t))
  | none => .error .fault

/-! ### Making a task -/

def taskInit (task pageDirectory eip process : Nat) : Program Stop TaskList Int := do
  storeTask task zeroTask
  let t ← loadTask task
  storeTask task {t with pageDirectory := pageDirectory}
  if pageDirectory = 0 then return -eio
  let t ← loadTask task
  let registers := {t.registers with
    eip := eip, ss := bkeTaskUserDataSegment, cs := bkeTaskUserCodeSegment,
    esp := bkeTaskProgramVirtualStackAddrStart}
  storeTask task {t with registers := registers, process := process}
  return 0

/-- `task_new` from `if (task_head == 0)` on: the new task goes to the end of the list. -/
def taskLink (task : Nat) : Program Stop TaskList Unit := do
  let s ← get
  if s.taskHead = 0 then
    set {s with taskHead := task, taskTail := task, currentTask := task}
  else
    let tail ← loadTask s.taskTail
    storeTask s.taskTail {tail with next := task}
    let t ← loadTask task
    storeTask task {t with prev := s.taskTail}
    modify fun s => {s with taskTail := task}

/-! ### The current task -/

def taskGetNext : Program Stop TaskList Nat := do
  let s ← get
  let current ← loadTask s.currentTask
  if current.next ≠ 0 then return current.next else return s.taskHead

def taskSwitch (task : Nat) : Program Stop TaskList Int := do
  modify fun s => {s with currentTask := task}
  -- `paging_switch(task->page_directory)`
  let _ ← loadTask task
  return 0

/-! ### Freeing a task -/

def taskListRemove (task : Nat) : Program Stop TaskList Unit := do
  let t ← loadTask task
  -- the next task's `prev` is left as it was
  Program.when (t.prev ≠ 0) do
    let p ← loadTask t.prev
    storeTask t.prev {p with next := t.next}
  let t ← loadTask task
  Program.when (task = (← get).taskHead) do modify fun s => {s with taskHead := t.next}
  Program.when (task = (← get).taskTail) do modify fun s => {s with taskTail := t.prev}
  Program.when (task = (← get).currentTask) do
    let next ← taskGetNext
    modify fun s => {s with currentTask := next}

/-- `kfree(task)`: the address no longer holds a task. -/
def dropTask (task : Nat) : Program Stop TaskList Unit :=
  modify fun s => s.put task none

def taskFree (task : Nat) : Program Stop TaskList Int := do
  -- `paging_free_4gb(task->page_directory)`
  let _ ← loadTask task
  taskListRemove task
  dropTask task
  return 0

/-- `task_new` on the memory `kzalloc` answered with, which is null or no live task's. -/
def taskNew (task pageDirectory eip process : Nat) : Program Stop TaskList Nat := do
  if task = 0 then
    let _ ← taskFree 0
    return u32OfInt (-enomem)
  modify fun s => s.put task (some zeroTask)
  let res ← taskInit task pageDirectory eip process
  if res ≠ 0 then
    let _ ← taskFree task
    return u32OfInt res
  taskLink task
  return task

end BasicOS

import BasicOS.Process.Load

/-! The memory a process asks for and gives back, and its end, as `process.c` does it.

Every allocation is a slot of the process: the block and the size asked for, mapped to
itself in the process's directory. Freeing takes the first slot with the pointer; a null
pointer finds the first empty slot. -/
namespace BasicOS
open Lib Program

variable {H : Type}

/-! ### Allocations -/

/-- The first slot with this pointer. -/
def Process.slotOf (p : Process) (ptr : Nat) : Option Nat :=
  (List.range basicOSMaxAllocationsAllowedPerProcess).find? fun i => (p.allocations i).ptr = ptr

def processFindFreeAllocationSlot (p : Process) : Int :=
  match p.slotOf 0 with
  | some i => i
  | none => -enomem

def Process.putAllocation (p : Process) (i : Nat) (a : ProcessAllocation) : Process :=
  {p with allocations := Function.update p.allocations i a}

def processMalloc (A : Allocator H) (process size : Nat) : Program Stop (Kernel H) Nat := do
  let p ← loadProcess process
  let idx := processFindFreeAllocationSlot p
  if idx < 0 then return 0
  let ptr ← onRam (kzalloc A size)
  if ptr = 0 then return 0
  let res ← mapInTask p.task ptr ptr (pagingAlignAddress (u32 (ptr + size))) flagsWritable
  if res < 0 then
    onRam (kfree A ptr)
    return 0
  let p ← loadProcess process
  storeProcess process (p.putAllocation idx.toNat ⟨ptr, size⟩)
  return ptr

def processFree (A : Allocator H) (process ptr : Nat) : Program Stop (Kernel H) Unit := do
  let p ← loadProcess process
  match p.slotOf ptr with
  | none => return ()
  | some i =>
    let pa := p.allocations i
    let res ← mapInTask p.task pa.ptr pa.ptr (pagingAlignAddress (u32 (pa.ptr + pa.size))) 0
    when (0 ≤ res) do
      let p ← loadProcess process
      storeProcess process (p.putAllocation i ⟨0, 0⟩)
      onRam (kfree A ptr)

/-! ### The end of a process -/

/-- The first `n` turns of the loop of `process_terminal_allocations`. -/
def terminalAllocations (A : Allocator H) (process : Nat) : Nat → Program Stop (Kernel H) Unit
  | 0 => return ()
  | i + 1 => do
    terminalAllocations A process i
    let p ← loadProcess process
    when ((p.allocations i).ptr ≠ 0) (processFree A process (p.allocations i).ptr)

def processTerminalAllocations (A : Allocator H) (process : Nat) : Program Stop (Kernel H) Int := do
  terminalAllocations A process basicOSMaxAllocationsAllowedPerProcess
  return 0

def processUnloadProcess (A : Allocator H) (process : Nat) : Program Stop (Kernel H) Int := do
  let p ← loadProcess process
  if p.filetype = processFormatFbin then
    onRam (kfree A p.ptr)
    return 0
  else if p.filetype = processFormatElf then
    elfClose A p.ptr
    return 0
  else return -einvarg

def processSwitchAvailable : Program Stop (Kernel H) Unit := do
  let s ← get
  match (List.range basicOSMaxProcesses).find? fun i => s.processes i ≠ 0 with
  | some i =>
    let _ ← processSwitch (s.processes i)
  | none => stop (.panic "No process to switch too!\n")

def processUnlink (process : Nat) : Program Stop (Kernel H) Unit := do
  let p ← loadProcess process
  setProcess p.id 0
  when ((← get).currentProcess = process) processSwitchAvailable

def processTerminate (A : Allocator H) (process : Nat) : Program Stop (Kernel H) Int := do
  let res ← processTerminalAllocations A process
  if res < 0 then return res
  let res ← processUnloadProcess A process
  let p ← loadProcess process
  onRam (kfree A p.stack)
  freeTask A p.task
  processUnlink process
  return res

end BasicOS

import BasicOS.Lib.IA32
import BasicOS.Lib.Run
import BasicOS.Task.List

/-! Saving a task and returning to it, as `task.c` and `task.asm` do it.

`taskSaveState` copies the interrupt frame into the `struct registers` of the task, which
lies 4 bytes into `struct task`. `taskReturn` is the assembly that takes such a structure
to an `iretd`: it pushes the five words `iretd` pops and then calls
`restore_general_purpose_registers`, which knows the structure by its offsets only. -/
namespace BasicOS
open Lib IA32

/-! ### Structures in memory -/

/-- `struct interrupt_frame`, as the wrapper in `interrupts.asm` and the processor pushed it. -/
structure InterruptFrame where
  edi : Nat
  esi : Nat
  ebp : Nat
  handlerEsp : Nat
  ebx : Nat
  edx : Nat
  ecx : Nat
  eax : Nat
  errCode : Nat
  eip : Nat
  cs : Nat
  eflags : Nat
  esp : Nat
  ss : Nat
deriving DecidableEq, Repr


/-- `&task->registers` -/
def taskRegisters (task : Nat) : Nat := task + 4

/-- The `struct registers` at an address. -/
def registersAt (mem : Memory) (regs : Nat) : Registers where
  edi := read32 mem regs
  esi := read32 mem (regs + 4)
  ebp := read32 mem (regs + 8)
  ebx := read32 mem (regs + 12)
  edx := read32 mem (regs + 16)
  ecx := read32 mem (regs + 20)
  eax := read32 mem (regs + 24)
  eip := read32 mem (regs + 28)
  cs := read32 mem (regs + 32)
  eflags := read32 mem (regs + 36)
  esp := read32 mem (regs + 40)
  ss := read32 mem (regs + 44)

def taskSaveState (mem : Memory) (task : Nat) (frame : InterruptFrame) : Memory :=
  let regs := taskRegisters task
  let mem := write32 mem (regs + 28) frame.eip
  let mem := write32 mem (regs + 32) frame.cs
  let mem := write32 mem (regs + 36) frame.eflags
  let mem := write32 mem (regs + 40) frame.esp
  let mem := write32 mem (regs + 44) frame.ss
  let mem := write32 mem (regs + 24) frame.eax
  let mem := write32 mem (regs + 8) frame.ebp
  let mem := write32 mem (regs + 12) frame.ebx
  let mem := write32 mem (regs + 20) frame.ecx
  let mem := write32 mem regs frame.edi
  let mem := write32 mem (regs + 16) frame.edx
  write32 mem (regs + 4) frame.esi

/-! ### The assembly -/

def restoreGeneralPurposeRegisters : List Instr := [
  .push .ebp,
  .mov .ebp .esp,
  .load .ebx .ebp 8,
  .load .edi .ebx 0,
  .load .esi .ebx 4,
  .load .ebp .ebx 8,
  .load .edx .ebx 16,
  .load .ecx .ebx 20,
  .load .eax .ebx 24,
  .load .ebx .ebx 12,
  .pop .ebp,
  .ret]

/-- `task_return` up to the first segment move: the words `iretd` will pop. -/
def pushReturnFrame : List Instr := [
  .mov .ebp .esp,
  .load .ebx .ebp 4,
  .pushMem .ebx 44,
  .pushMem .ebx 40,
  .pushf,
  .pop .eax,
  .or .eax 0x200,
  .push .eax,
  .pushMem .ebx 32,
  .pushMem .ebx 28]

def loadSegments : List Instr := [
  .load16 .eax .ebx 44,
  .movSeg .ds .eax,
  .movSeg .es .eax,
  .movSeg .fs .eax,
  .movSeg .gs .eax]

/-- `task_return` up to its `iretd`; `after` is the address behind its `call`. -/
def taskReturn (after : Nat) : List Instr :=
  pushReturnFrame ++ loadSegments ++
    (.pushMem .ebp 4 :: .call after :: restoreGeneralPurposeRegisters) ++ [.add .esp 4]

/-- `task_return(&task->registers)`, called from C code that goes on at `caller`. -/
def callTaskReturn (m : Machine) (task caller after : Nat) : Machine :=
  run ((m.pushVal (taskRegisters task)).pushVal caller) (taskReturn after)

/-- What the program sees after the `iretd` the machine has reached. -/
def iretRegisters (m : Machine) : Registers where
  edi := m.reg .edi
  esi := m.reg .esi
  ebp := m.reg .ebp
  ebx := m.reg .ebx
  edx := m.reg .edx
  ecx := m.reg .ecx
  eax := m.reg .eax
  eip := read32 m.mem (m.reg .esp)
  cs := read32 m.mem (m.reg .esp + 4)
  eflags := read32 m.mem (m.reg .esp + 8)
  esp := read32 m.mem (m.reg .esp + 12)
  ss := read32 m.mem (m.reg .esp + 16)

end BasicOS

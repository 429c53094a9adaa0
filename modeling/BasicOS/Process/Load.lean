import BasicOS.Loader.Elf

/-! Loading a process, as `process.c` does it.

`processLoadForSlot` reads the file (as ELF, else as a flat binary), makes a stack and a
task, and maps the image and the stack into the task's directory. The cleanup at its end
is shared by every failure, also by the one that is found before `_process` has a value. -/
namespace BasicOS
open Lib Program

abbrev sizeofProcess : Nat := 9364
abbrev bkeTaskProgramVirtualAddr : Nat := 0x400000
abbrev bkeTaskUserStackSize : Nat := 0x4000
abbrev bkeTaskProgramVirtualStackAddrEnd : Nat := bkeTaskProgramVirtualStackAddrStart - bkeTaskUserStackSize

/-- Present and user-accessible. -/
abbrev flagsReadOnly : Int := 0b101
/-- Present, user-accessible and writable. -/
abbrev flagsWritable : Int := 0b111

/-- What the uninitialised variables of one call of the loader hold. -/
structure Uninitialised where
  process : Nat
  fd : Int

variable {H : Type}

/-! ### The file -/

/-- `process_load_binary` from `fstat` on, with the file open. -/
def readBinary (A : Allocator H) (vol : Volume) (process : Nat) (fd : Int) : Program Stop (Kernel H) Int := do
  let (res, fileSize) ← onFiles (fstat fd)
  if res ≠ 0 then return res
  let programDataPtr ← onRam (kzalloc A fileSize)
  if programDataPtr = 0 then return -enomem
  if (← onFiles (fread vol programDataPtr fileSize 1 fd)) ≠ 1 then return -eio
  let p ← loadProcess process
  storeProcess process {p with filetype := processFormatFbin, ptr := programDataPtr, size := fileSize}
  return res

def processLoadBinary (A : Allocator H) (vol : Volume) (filename : List UInt8) (process : Nat) :
    Program Stop (Kernel H) Int := do
  let fd ← onFiles (fopen A vol filename [0x72])
  if fd = 0 then
    let _ ← onFiles (fclose A 0)
    return -eio
  let res ← readBinary A vol process (s32 fd)
  let _ ← onFiles (fclose A (s32 fd))
  return res

def processLoadElf (A : Allocator H) (vol : Volume) (fd : Int) (filename : List UInt8) (process : Nat) :
    Program Stop (Kernel H) Int := do
  let (res, elfFile) ← elfLoad A vol fd filename
  if res < 0 then return res
  let p ← loadProcess process
  storeProcess process {p with filetype := processFormatElf, ptr := elfFile}
  return res

def processLoadData (A : Allocator H) (vol : Volume) (fd : Int) (filename : List UInt8) (process : Nat) :
    Program Stop (Kernel H) Int := do
  let res ← processLoadElf A vol fd filename process
  if res = -einvformat then processLoadBinary A vol filename process else return res

/-! ### The address space -/

/-- The loop of `process_map_elf` from header `i` on, with the turns left; `e_phnum` is 16 bits wide. -/
def mapElfFrom (chunk elfMemory phdrs : Nat) : Nat → Nat → Memory → Int → Int × Memory
  | 0, _, mem, res => (res, mem)
  | n + 1, i, mem, res =>
    if i < ePhnum mem elfMemory then
      let phdr := phdrIn mem phdrs i
      let phdrPhysicalAddr := elfPhdrComputePhysicalAddress elfMemory phdr
      let flags := if phdr.pFlags &&& pfW ≠ 0 then flagsWritable else flagsReadOnly
      let (res, mem) := pagingMapTo mem chunk (pagingAlignToLowerPageAddr phdr.pVaddr)
        (pagingAlignToLowerPageAddr phdrPhysicalAddr)
        (pagingAlignAddress (u32 (phdrPhysicalAddr + phdr.pMemsz))) flags
      if res < 0 then (res, mem) else mapElfFrom chunk elfMemory phdrs n (i + 1) mem res
    else (res, mem)

def mapElf (chunk elfMemory : Nat) (mem : Memory) : Int × Memory :=
  mapElfFrom chunk elfMemory (elfPheader mem elfMemory) 0xFFFF 0 mem 0

def processMapElf (process : Nat) : Program Stop (Kernel H) Int := do
  let p ← loadProcess process
  let f ← loadElfFile p.ptr
  let t ← onTasks (loadTask p.task)
  onRam fun s => .ok ((mapElf t.pageDirectory f.elfMemory s.mem).1,
    {s with mem := (mapElf t.pageDirectory f.elfMemory s.mem).2})

def processMapBinary (process : Nat) : Program Stop (Kernel H) Int := do
  let p ← loadProcess process
  let _ ← mapInTask p.task bkeTaskProgramVirtualAddr p.ptr (pagingAlignAddress (u32 (p.ptr + p.size))) flagsWritable
  return 0

def processMapMemory (process : Nat) : Program Stop (Kernel H) Int := do
  let p ← loadProcess process
  let res ←
    if p.filetype = processFormatElf then processMapElf process
    else if p.filetype = processFormatFbin then processMapBinary process
    else return -einvformat
  if res < 0 then return res
  let p ← loadProcess process
  let _ ← mapInTask p.task bkeTaskProgramVirtualStackAddrEnd p.stack
    (pagingAlignAddress (u32 (p.stack + bkeTaskUserStackSize))) flagsWritable
  return res

/-! ### The task -/

/-- The entry point `task_init` reads. -/
def programEntry (process : Nat) : Program Stop (Kernel H) Nat := do
  let p ← loadProcess process
  if p.filetype = processFormatElf then
    let f ← loadElfFile p.ptr
    return eEntry (← get).ram.mem f.elfMemory
  else return bkeTaskProgramVirtualAddr

/-- `task_new`, with what its callees answer. -/
def newTask (A : Allocator H) (process : Nat) : Program Stop (Kernel H) Nat := do
  let task ← onRam (kzalloc A sizeofTask)
  when (task = 0) (stop .fault)
  let pageDirectory ← onRam (genPaging4gb A (pagingMasksIsPresent ||| pagingMasksAccessAll))
  let eip ← programEntry process
  onTasks (taskNew task pageDirectory eip process)

/-- `task_free`, with its directory and its memory. -/
def freeTask (A : Allocator H) (task : Nat) : Program Stop (Kernel H) Unit := do
  let t ← onTasks (loadTask task)
  onRam (pagingFree4gb A t.pageDirectory)
  let _ ← onTasks (taskFree task)
  onRam (kfree A task)

/-! ### The process -/

/-- The cleanup after a failure. -/
def loadCleanup (A : Allocator H) (process : Nat) : Program Stop (Kernel H) Unit := do
  when (process ≠ 0) do
    let p ← loadProcess process
    when (p.task ≠ 0) (freeTask A p.task)
    when (p.stack ≠ 0) (onRam (kfree A p.stack))
    -- of an ELF image this is the `struct elf_file`, not the image
    when (p.ptr ≠ 0) do
      onRam (kfree A p.ptr)
      modify fun s => s.putElfFile p.ptr none
    onRam (kfree A process)
    modify fun s => s.putProcess process none

/-- `process_load_for_slot` from `process_load_data` on: the result, and whether the process
is made. A null task leaves with the result 0. -/
def loadInto (A : Allocator H) (vol : Volume) (fd : Int) (filename : List UInt8) (processSlot : Int)
    (process : Nat) : Program Stop (Kernel H) (Int × Bool) := do
  let res ← processLoadData A vol fd filename process
  if res < 0 then return (res, false)
  let programStackPtr ← onRam (kzalloc A bkeTaskUserStackSize)
  if programStackPtr = 0 then return (-enomem, false)
  let p ← loadProcess process
  storeProcess process {p with
    stack := programStackPtr, filename := filename.take (fsMaxPathLen - 1), id := u32OfInt processSlot}
  let task ← newTask A process
  if task = 0 then return (s32 task, false)
  let p ← loadProcess process
  storeProcess process {p with task := task}
  let res ← processMapMemory process
  return (res, true)

/-- `processes[process_slot] = _process`. -/
def setProcess (processSlot : Int) (process : Nat) : Program Stop (Kernel H) Unit := do
  when (processSlot < 0 ∨ processSlot ≥ basicOSMaxProcesses) (stop .fault)
  modify fun s => {s with processes := Function.update s.processes processSlot.toNat process}

/-- The result and `*process`, which a failure leaves unset. -/
def processLoadForSlot (A : Allocator H) (vol : Volume) (junk : Uninitialised) (filename : List UInt8)
    (processSlot : Int) : Program Stop (Kernel H) (Int × Option Nat) := do
  if (← get).getProcess processSlot ≠ 0 then
    -- `_process` has no value yet
    loadCleanup A junk.process
    return (-epidIstkn, none)
  let process ← onRam (kzalloc A sizeofProcess)
  if process = 0 then return (-enomem, none)
  modify fun s => s.putProcess process (some zeroProcess)
  let (res, made) ← loadInto A vol junk.fd filename processSlot process
  if res < 0 then
    loadCleanup A process
    return (res, none)
  if !made then return (res, none)
  setProcess processSlot process
  return (res, some process)

def processLoad (A : Allocator H) (vol : Volume) (junk : Uninitialised) (filename : List UInt8) :
    Program Stop (Kernel H) (Int × Option Nat) := do
  let processSlot := (← get).getFreeProcessSlot
  if processSlot < 0 then return (-eprocNomem, none)
  processLoadForSlot A vol junk filename processSlot

def processLoadSwitch (A : Allocator H) (vol : Volume) (junk : Uninitialised) (filename : List UInt8) :
    Program Stop (Kernel H) (Int × Option Nat) := do
  let (res, process) ← processLoad A vol junk filename
  when (res = 0) do
    let _ ← processSwitch (process.getD 0)
  return (res, process)

end BasicOS

import BasicOS.Fs.File
import BasicOS.Paging.Directory
import BasicOS.Task.List

/-! The state the process functions work on.

Structures the kernel allocates (`struct process`, `struct elf_file`, `struct task`) are
kept by the address `kzalloc` gave them; following any other address is a `fault`. Bytes
that are only bytes (program images, stacks, user memory, page tables) are in `ram`. -/
namespace BasicOS
open Lib Program

abbrev basicOSMaxProcesses : Nat := 0xC
abbrev basicOSMaxAllocationsAllowedPerProcess : Nat := 0x400
abbrev processFormatElf : Nat := 0x0
abbrev processFormatFbin : Nat := 0x1

structure ProcessAllocation where
  ptr : Nat
  size : Nat
deriving DecidableEq, Repr

structure ProcessArguments where
  argc : Int
  argv : Nat
deriving DecidableEq, Repr

/-- `struct process`; `ptr` is the union's word, the image of a flat binary or the address
of a `struct elf_file`. -/
structure Process where
  id : Nat
  filename : List UInt8
  task : Nat
  allocations : Nat → ProcessAllocation
  filetype : Nat
  ptr : Nat
  stack : Nat
  size : Nat
  arguments : ProcessArguments

structure ElfFile where
  elfMemory : Nat
  virtualBaseAddr : Nat
  virtualEndAddr : Nat
  physicalBaseAddr : Nat
  physicalEndAddr : Nat
deriving DecidableEq, Repr

structure Kernel (H : Type) where
  files : Files H
  taskList : TaskList
  process : Nat → Option Process
  elfFile : Nat → Option ElfFile
  processes : Nat → Nat
  currentProcess : Nat

/-- A `struct process` after `process_init`. -/
def zeroProcess : Process := ⟨0, [], 0, fun _ => ⟨0, 0⟩, 0, 0, 0, 0, ⟨0, 0⟩⟩

def zeroElfFile : ElfFile := ⟨0, 0, 0, 0, 0⟩

variable {H : Type} {B : Type}

abbrev Kernel.ram (s : Kernel H) : Ram H := s.files.ram

def Kernel.withRam (ram : Ram H) (s : Kernel H) : Kernel H := {s with files := {s.files with ram := ram}}

def Kernel.putProcess (s : Kernel H) (process : Nat) (p : Option Process) : Kernel H :=
  {s with process := Function.update s.process process p}

def Kernel.putElfFile (s : Kernel H) (elfFile : Nat) (f : Option ElfFile) : Kernel H :=
  {s with elfFile := Function.update s.elfFile elfFile f}

/-! ### Parts of the state -/

def onFiles (x : Program Stop (Files H) B) : Program Stop (Kernel H) B :=
  zoom Kernel.files (fun files s => {s with files := files}) x

def onRam (x : Program Stop (Ram H) B) : Program Stop (Kernel H) B := zoom Kernel.ram Kernel.withRam x

def onTasks (x : Program Stop TaskList B) : Program Stop (Kernel H) B :=
  zoom Kernel.taskList (fun tasks s => {s with taskList := tasks}) x

def loadProcess (process : Nat) : Program Stop (Kernel H) Process := fun s =>
  match s.process process with
  | some p => .ok (p, s)
  | none => .error .fault

def storeProcess (process : Nat) (p : Process) : Program Stop (Kernel H) Unit := fun s =>
  match s.process process with
  | some _ => .ok ((), s.putProcess process (some p))
  | none => .error .fault

def loadElfFile (elfFile : Nat) : Program Stop (Kernel H) ElfFile := fun s =>
  match s.elfFile elfFile with
  | some f => .ok (f, s)
  | none => .error .fault

def storeElfFile (elfFile : Nat) (f : ElfFile) : Program Stop (Kernel H) Unit := fun s =>
  match s.elfFile elfFile with
  | some _ => .ok ((), s.putElfFile elfFile (some f))
  | none => .error .fault

section Access

variable {s : Kernel H} {R : Stop → Prop}

theorem wp_loadProcess {process : Nat} {p : Process} {Q : Process → Kernel H → Prop}
    (h : s.process process = some p) : wp (loadProcess process) Q R s ↔ Q p s := by
  unfold wp loadProcess
  rw [h]

theorem wp_storeProcess {process : Nat} {p p' : Process} {Q : Unit → Kernel H → Prop}
    (h : s.process process = some p) : wp (storeProcess process p') Q R s ↔ Q () (s.putProcess process (some p')) := by
  unfold wp storeProcess
  rw [h]

theorem wp_loadElfFile {elfFile : Nat} {f : ElfFile} {Q : ElfFile → Kernel H → Prop}
    (h : s.elfFile elfFile = some f) : wp (loadElfFile elfFile) Q R s ↔ Q f s := by
  unfold wp loadElfFile
  rw [h]

theorem wp_storeElfFile {elfFile : Nat} {f f' : ElfFile} {Q : Unit → Kernel H → Prop}
    (h : s.elfFile elfFile = some f) :
    wp (storeElfFile elfFile f') Q R s ↔ Q () (s.putElfFile elfFile (some f')) := by
  unfold wp storeElfFile
  rw [h]

theorem Ensures.onFiles {x : Program Stop (Files H) B} {Q : B → Files H → Prop} (h : Ensures x Q s.files) :
    Ensures (onFiles x) (fun b t => ∃ files, t = {s with files := files} ∧ Q b files) s := by
  unfold BasicOS.onFiles
  rw [Ensures, wp_zoom]
  exact wp.mono h (fun _ files hQ => ⟨files, rfl, hQ⟩) fun _ h => h

theorem wp.onRam {x : Program Stop (Ram H) B} {Q : B → Ram H → Prop} (h : wp x Q R s.ram) :
    wp (onRam x) (fun b t => ∃ ram, t = s.withRam ram ∧ Q b ram) R s := by
  unfold BasicOS.onRam
  rw [wp_zoom]
  exact wp.mono h (fun _ ram hQ => ⟨ram, rfl, hQ⟩) fun _ h => h

theorem Ensures.onRam {x : Program Stop (Ram H) B} {Q : B → Ram H → Prop} (h : Ensures x Q s.ram) :
    Ensures (onRam x) (fun b t => ∃ ram, t = s.withRam ram ∧ Q b ram) s := wp.onRam h

theorem wp.onTasks {x : Program Stop TaskList B} {Q : B → TaskList → Prop} (h : wp x Q R s.taskList) :
    wp (onTasks x) (fun b t => ∃ tasks, t = {s with taskList := tasks} ∧ Q b tasks) R s := by
  unfold BasicOS.onTasks
  rw [wp_zoom]
  exact wp.mono h (fun _ tasks hQ => ⟨tasks, rfl, hQ⟩) fun _ h => h

theorem Ensures.onTasks {x : Program Stop TaskList B} {Q : B → TaskList → Prop} (h : Ensures x Q s.taskList) :
    Ensures (onTasks x) (fun b t => ∃ tasks, t = {s with taskList := tasks} ∧ Q b tasks) s := wp.onTasks h

theorem wp_onTasks_loadTask {task : Nat} {t : Task} {Q : Task → Kernel H → Prop}
    (h : s.taskList.tasks task = some t) : wp (onTasks (loadTask task)) Q R s ↔ Q t s := by
  have hload : loadTask task s.taskList = .ok (t, s.taskList) := by
    unfold loadTask
    rw [h]
  unfold onTasks
  rw [wp_zoom, wp_ok hload]

end Access

/-- `paging_map_to` through `process->task->page_directory`. -/
def mapInTask (task vAddr pAddr pAddrEnd : Nat) (flags : Int) : Program Stop (Kernel H) Int := do
  let t ← onTasks (loadTask task)
  onRam fun s => .ok ((pagingMapTo s.mem t.pageDirectory vAddr pAddr pAddrEnd flags).1,
    {s with mem := (pagingMapTo s.mem t.pageDirectory vAddr pAddr pAddrEnd flags).2})

/-! ### The process table -/

/-- `get_process`, with null for a number out of range. -/
def Kernel.getProcess (s : Kernel H) (pid : Int) : Nat :=
  if pid < 0 ∨ pid ≥ basicOSMaxProcesses then 0 else s.processes pid.toNat

def processSwitch (process : Nat) : Program Stop (Kernel H) Int := do
  modify fun s => {s with currentProcess := process}
  return 0

def Kernel.getFreeProcessSlot (s : Kernel H) : Int :=
  match (List.range basicOSMaxProcesses).find? fun i => s.processes i = 0 with
  | some i => i
  | none => -eprocNomem

end BasicOS

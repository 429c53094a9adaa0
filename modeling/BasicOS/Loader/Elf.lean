import BasicOS.Process.Kernel

/-! Loading an ELF file, as `elf_loader.c` does it.

The whole file is read into one block and stays there; the header and the program headers
are read from that memory each time, wherever `e_phoff` points. On an error `elf_load`
closes the file and frees neither the image nor its `struct elf_file`. -/
namespace BasicOS
open Lib Program

abbrev sizeofElfFile : Nat := 132
abbrev sizeofElf32Phdr : Nat := 32
abbrev eiClass : Nat := 0x04
abbrev eiData : Nat := 0x05
abbrev elfclassnone : UInt8 := 0x00
abbrev elfclass32 : UInt8 := 0x01
abbrev elfdatanone : UInt8 := 0x00
abbrev elfdata2lsb : UInt8 := 0x01
abbrev ptLoad : Nat := 0x01
abbrev pfW : Nat := 0x02

/-- The fields of `struct elf32_phdr` the kernel reads. -/
structure Elf32Phdr where
  pType : Nat
  pOffset : Nat
  pVaddr : Nat
  pFilesz : Nat
  pMemsz : Nat
  pFlags : Nat
deriving DecidableEq, Repr

/-! ### The header in memory -/

def eEntry (mem : Memory) (header : Nat) : Nat := read32 mem (header + 24)
def ePhoff (mem : Memory) (header : Nat) : Nat := read32 mem (header + 28)
def ePhnum (mem : Memory) (header : Nat) : Nat := read16 mem (header + 44)

def elfValidSignature (mem : Memory) (buffer : Nat) : Bool :=
  mem buffer == 0x7F && mem (buffer + 1) == 0x45 && mem (buffer + 2) == 0x4C && mem (buffer + 3) == 0x46

def elfValidClass (mem : Memory) (header : Nat) : Bool :=
  mem (header + eiClass) == elfclassnone || mem (header + eiClass) == elfclass32

def elfValidEncoding (mem : Memory) (header : Nat) : Bool :=
  mem (header + eiData) == elfdatanone || mem (header + eiData) == elfdata2lsb

def elfHasProgramHeader (mem : Memory) (header : Nat) : Bool := ePhoff mem header != 0

def elfPheader (mem : Memory) (header : Nat) : Nat :=
  if elfHasProgramHeader mem header then u32 (header + ePhoff mem header) else 0

/-- The `struct elf32_phdr` at an address. -/
def elf32PhdrAt (mem : Memory) (phdr : Nat) : Elf32Phdr where
  pType := read32 mem phdr
  pOffset := read32 mem (u32 (phdr + 4))
  pVaddr := read32 mem (u32 (phdr + 8))
  pFilesz := read32 mem (u32 (phdr + 16))
  pMemsz := read32 mem (u32 (phdr + 20))
  pFlags := read32 mem (u32 (phdr + 24))

/-- `phdrs[i]`. -/
def phdrIn (mem : Memory) (phdrs i : Nat) : Elf32Phdr := elf32PhdrAt mem (u32 (phdrs + i * sizeofElf32Phdr))

def elfProgramHeader (mem : Memory) (header idx : Nat) : Elf32Phdr := phdrIn mem (elfPheader mem header) idx

def elfPhdrComputePhysicalAddress (elfMemory : Nat) (phdr : Elf32Phdr) : Nat := u32 (elfMemory + phdr.pOffset)

def elfValidateLoaded (mem : Memory) (header : Nat) : Int :=
  if elfValidSignature mem header && elfValidClass mem header && elfValidEncoding mem header &&
    elfHasProgramHeader mem header then 0 else -einvformat

/-! ### Program headers -/

def elfProcessPhdrPtLoad (f : ElfFile) (phdr : Elf32Phdr) : ElfFile :=
  let f :=
    if f.virtualBaseAddr ≥ phdr.pVaddr ∨ f.virtualBaseAddr = 0 then
      {f with virtualBaseAddr := phdr.pVaddr, physicalBaseAddr := u32 (f.elfMemory + phdr.pOffset)}
    else f
  let endVirtualAddress := u32 (phdr.pVaddr + phdr.pFilesz)
  if f.virtualEndAddr ≤ endVirtualAddress ∨ f.virtualEndAddr = 0 then
    {f with
      virtualEndAddr := endVirtualAddress, physicalEndAddr := u32 (f.elfMemory + phdr.pOffset + phdr.pFilesz)}
  else f

def elfProcessPheader (f : ElfFile) (phdr : Elf32Phdr) : Int × ElfFile :=
  if phdr.pType = ptLoad then (0, elfProcessPhdrPtLoad f phdr) else (-eio, f)

/-- The loop of `elf_process_pheaders` from header `i` on, with the headers left. -/
def elfProcessPheadersFrom (mem : Memory) : Nat → Nat → ElfFile → Int × ElfFile
  | 0, _, f => (0, f)
  | n + 1, i, f =>
    let (res, f) := elfProcessPheader f (elfProgramHeader mem f.elfMemory i)
    if res < 0 then (res, f) else elfProcessPheadersFrom mem n (i + 1) f

def elfProcessPheaders (mem : Memory) (f : ElfFile) : Int × ElfFile :=
  elfProcessPheadersFrom mem (ePhnum mem f.elfMemory) 0 f

def elfProcessLoaded (mem : Memory) (f : ElfFile) : Int × ElfFile :=
  let res := elfValidateLoaded mem f.elfMemory
  if res < 0 then (res, f) else elfProcessPheaders mem f

@[simp] theorem elfProcessPhdrPtLoad_elfMemory (f : ElfFile) (phdr : Elf32Phdr) :
    (elfProcessPhdrPtLoad f phdr).elfMemory = f.elfMemory := by
  unfold elfProcessPhdrPtLoad
  simp only
  split <;> split <;> rfl

@[simp] theorem elfProcessPheader_elfMemory (f : ElfFile) (phdr : Elf32Phdr) :
    (elfProcessPheader f phdr).2.elfMemory = f.elfMemory := by
  unfold elfProcessPheader
  split
  · exact elfProcessPhdrPtLoad_elfMemory f phdr
  · rfl

theorem elfProcessPheader_nonpos (f : ElfFile) (phdr : Elf32Phdr) : (elfProcessPheader f phdr).1 ≤ 0 := by
  unfold elfProcessPheader
  split
  · exact Int.le_refl 0
  · exact show -eio ≤ 0 by decide

/-- The loop over the headers never answers more than 0, and the file stays where it is. -/
theorem elfProcessPheadersFrom_spec (mem : Memory) (n i : Nat) (f : ElfFile) :
    (elfProcessPheadersFrom mem n i f).1 ≤ 0 ∧ (elfProcessPheadersFrom mem n i f).2.elfMemory = f.elfMemory := by
  induction n generalizing i f with
  | zero => exact ⟨Int.le_refl 0, rfl⟩
  | succ n ih =>
    unfold elfProcessPheadersFrom
    have hmemory := elfProcessPheader_elfMemory f (elfProgramHeader mem f.elfMemory i)
    simp only
    split
    · exact ⟨elfProcessPheader_nonpos _ _, hmemory⟩
    · exact ⟨(ih _ _).1, (ih _ _).2.trans hmemory⟩

/-! ### Loading -/

variable {H : Type}

/-- `elf_load` from `fstat` on, with the file open. -/
def elfReadFile (A : Allocator H) (vol : Volume) (elfFile : Nat) (fd : Int) : Program Stop (Kernel H) Int := do
  let (res, fileSize) ← onFiles (fstat fd)
  if res < 0 then return res
  let elfMemory ← onRam (kzalloc A fileSize)
  let f ← loadElfFile elfFile
  storeElfFile elfFile {f with elfMemory := elfMemory}
  if elfMemory = 0 then return -enomem
  let res ← onFiles (fread vol elfMemory fileSize 1 fd)
  if res < 0 then return res
  let f ← loadElfFile elfFile
  let (res, f) := elfProcessLoaded (← get).ram.mem f
  storeElfFile elfFile f
  return res

/-- `elf_load` from `fstat` to `fread`: the block with the file and its size, or the error it
returns without them. -/
def elfFetch (A : Allocator H) (vol : Volume) (elfFile : Nat) (fd : Int) :
    Program Stop (Kernel H) (Except Int (Nat × Nat)) := do
  let (res, fileSize) ← onFiles (fstat fd)
  if res < 0 then return .error res
  let elfMemory ← onRam (kzalloc A fileSize)
  let f ← loadElfFile elfFile
  storeElfFile elfFile {f with elfMemory := elfMemory}
  if elfMemory = 0 then return .error (-enomem)
  let res ← onFiles (fread vol elfMemory fileSize 1 fd)
  if res < 0 then return .error res
  return .ok (elfMemory, fileSize)

/-- What comes after: the checks, on the file in memory. -/
def elfCheck (elfFile : Nat) : Program Stop (Kernel H) Int := do
  let f ← loadElfFile elfFile
  let (res, f) := elfProcessLoaded (← get).ram.mem f
  storeElfFile elfFile f
  return res

theorem elfReadFile_eq (A : Allocator H) (vol : Volume) (elfFile : Nat) (fd : Int) :
    elfReadFile A vol elfFile fd =
      elfFetch A vol elfFile fd >>= fun out => out.casesOn pure fun _ => elfCheck elfFile := by
  unfold elfReadFile elfFetch elfCheck
  simp only [bind_assoc]
  refine bind_congr fun out => ?_
  split
  · simp only [pure_bind]
  · simp only [bind_assoc]
    refine bind_congr fun elfMemory => bind_congr fun f => bind_congr fun _ => ?_
    split
    · simp only [pure_bind]
    · simp only [bind_assoc]
      refine bind_congr fun res => ?_
      split
      · simp only [pure_bind]
      · simp only [pure_bind]

/-- `elf_load`: the result and `*file_out`. `fd` is what the uninitialised variable holds. -/
def elfLoad (A : Allocator H) (vol : Volume) (fd : Int) (filename : List UInt8) :
    Program Stop (Kernel H) (Int × Nat) := do
  let elfFile ← onRam (kzalloc A sizeofElfFile)
  if elfFile = 0 then
    -- `goto out` jumps over the initialisation of `fd`
    let _ ← onFiles (fclose A fd)
    return (-enomem, 0)
  modify fun s => s.putElfFile elfFile (some zeroElfFile)
  let res ← onFiles (fopen A vol filename [0x72])
  if s32 res ≤ 0 then
    let _ ← onFiles (fclose A 0)
    return (-eio, 0)
  let fd := s32 res
  let res ← elfReadFile A vol elfFile fd
  let _ ← onFiles (fclose A fd)
  return (res, if res < 0 then 0 else elfFile)

def elfClose (A : Allocator H) (elfFile : Nat) : Program Stop (Kernel H) Unit := do
  when (elfFile ≠ 0) do
    let f ← loadElfFile elfFile
    onRam (kfree A f.elfMemory)
    onRam (kfree A elfFile)
    modify fun s => s.putElfFile elfFile none

end BasicOS

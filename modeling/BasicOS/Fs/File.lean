import BasicOS.Fs.Lookup

/-! The file descriptors of `file.c`.

Descriptors are numbered from 1; a free entry of the table is null. `fopen` returns 0
for every error and frees nothing of what it took up to then. `fclose` frees the
descriptor, the driver's descriptor and the copy of the record. -/
namespace BasicOS
open Lib Program

abbrev maxFileDescriptorsActive : Nat := 512
abbrev sizeofFileDescriptor : Nat := 16

/-- `struct file_descriptor` at `addr`; its disk and filesystem are the only ones. -/
structure FileDescriptor where
  addr : Nat
  id : Nat
  priv : OpenFile
deriving DecidableEq, Repr

/-- The disk, and what `fat16_resolve` read from it when it is mounted. -/
structure Volume where
  disk : Memory
  mounted : Option FatPrivate

/-- Memory with the descriptor table. -/
structure Files (H : Type) where
  ram : Ram H
  fileDescriptors : Nat → Option FileDescriptor

variable {H : Type}

def inRam {A : Type} (x : Program Stop (Ram H) A) : Program Stop (Files H) A :=
  zoom Files.ram (fun ram s => {s with ram := ram}) x

def Files.put (s : Files H) (i : Nat) (desc : Option FileDescriptor) : Files H :=
  {s with fileDescriptors := Function.update s.fileDescriptors i desc}

/-! ### Descriptors -/

/-- The index of the first free entry. -/
def Files.freeIndex (s : Files H) : Option Nat :=
  (List.range maxFileDescriptorsActive).find? fun i => (s.fileDescriptors i).isNone

/-- `file_new_descriptor` for an open file: the id, or `-ENOMEM`. -/
def fileNewDescriptor (A : Allocator H) (file : OpenFile) : Program Stop (Files H) Int := do
  match (← get).freeIndex with
  | none => return -enomem
  | some i =>
    let desc ← inRam (kzalloc A sizeofFileDescriptor)
    when (desc = 0) (stop .fault)
    modify fun s => s.put i (some ⟨desc, i + 1, file⟩)
    return (i + 1 : Nat)

def Files.fileGetFd (s : Files H) (fd : Int) : Option FileDescriptor :=
  if fd < 1 ∨ fd > maxFileDescriptorsActive then none else s.fileDescriptors (fd.toNat - 1)

def fileFreeDescriptor (A : Allocator H) (desc : FileDescriptor) : Program Stop (Files H) Unit := do
  modify fun s => s.put (desc.id - 1) none
  inRam (kfree A desc.addr)

def fileGetModeByStr (str : List UInt8) : FileMode :=
  if str.head? = some 0x72 then .read
  else if str.head? = some 0x77 then .write
  else if str.head? = some 0x61 then .append
  else .invalid

/-! ### The interface -/

/-- `disk->filesystem->open(disk, root_path->first, mode)` and the checks before it. -/
def openPath (A : Allocator H) (vol : Volume) (rootPath : Option PathRoot) (modeStr : List UInt8) :
    Program Stop (Ram H) (Except Int OpenFile) := do
  match rootPath with
  | none => return .error (-einvarg)
  | some ⟨_, _, []⟩ => return .error (-einvarg)
  | some ⟨_, driveNumber, path :: next⟩ =>
    if driveNumber ≠ 0 then return .error (-eio)
    match vol.mounted with
    | none => return .error (-eio)
    | some priv =>
      let mode := fileGetModeByStr modeStr
      if mode = .invalid then return .error (-einvarg)
      fat16Open A vol.disk priv path next mode

def fopen (A : Allocator H) (vol : Volume) (filename modeStr : List UInt8) : Program Stop (Files H) Nat := do
  let rootPath ← inRam (pparserParse A filename)
  match ← inRam (openPath A vol rootPath modeStr) with
  | .error _ => return 0
  | .ok file =>
    if isErr file.addr then return 0
    let res ← fileNewDescriptor A file
    -- null, not the error code
    if res < 0 then return 0
    return res.toNat

/-- The result and `stat->file_size`. -/
def fstat (fd : Int) : Program Stop (Files H) (Int × Nat) := do
  match (← get).fileGetFd fd with
  | none => return (-eio, 0)
  | some desc => inRam (fat16Stat desc.priv)

def fclose (A : Allocator H) (fd : Int) : Program Stop (Files H) Int := do
  match (← get).fileGetFd fd with
  | none => return -eio
  | some desc =>
    let res ← inRam (fat16Close A desc.priv)
    when (res = 0) (fileFreeDescriptor A desc)
    return res

def fseek (fd : Int) (offset : Nat) (whence : FileSeekMode) : Program Stop (Files H) Int := do
  match (← get).fileGetFd fd with
  | none => return -eio
  | some desc =>
    let (res, file) ← inRam (fat16Seek desc.priv offset whence)
    modify fun s => s.put (desc.id - 1) (some {desc with priv := file})
    return res

def fread (vol : Volume) (ptr size nmemb : Nat) (fd : Int) : Program Stop (Files H) Int := do
  if size = 0 ∨ nmemb = 0 ∨ fd < 1 then return -einvarg
  match (← get).fileGetFd fd, vol.mounted with
  | some desc, some priv =>
    when (desc.priv.item.item = 0) (stop .fault)
    let (res, bytes) := fat16Read vol.disk priv ⟨desc.priv.item.record, desc.priv.pos⟩ size nmemb
    inRam (modify fun s => {s with mem := store s.mem ptr bytes})
    return res
  | _, _ => return -einvarg

end BasicOS

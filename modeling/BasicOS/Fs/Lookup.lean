import BasicOS.Fs.Fat16
import BasicOS.Fs.Path

/-! Opening and closing a file of the volume, as `fat16.c` does it.

A lookup compares the path's first part with the name of every item of the root
directory and keeps the last that matches; every match takes memory for an item and a
copy of its record. The item's type is set to `FILE` for directories too, so a path of
several parts is never found. -/
namespace BasicOS
open Lib Program

abbrev fatItemTypeDirectory : Nat := 0
abbrev fatItemTypeFile : Nat := 1
abbrev fatMasksFileSubdirectory : Nat := 0x10
abbrev sizeofFatDirectory : Nat := 16
abbrev sizeofFatItem : Nat := 8
abbrev sizeofFatFileDescriptor : Nat := 8

/-- `struct fat_item` at `addr`; `item` is where the copy of its record is, null when there
was no memory for it. -/
structure FatItem where
  addr : Nat
  item : Nat
  record : FatDirectoryItem
  type : Nat
deriving DecidableEq, Repr

/-- `struct fat_file_descriptor` at `addr`. -/
structure OpenFile where
  addr : Nat
  item : FatItem
  pos : Nat
deriving DecidableEq, Repr

inductive FileMode where
  | read
  | write
  | append
  | invalid
deriving DecidableEq, Repr

/-! ### Names -/

def bytes16 (v : Nat) : List UInt8 := [UInt8.ofNat v, UInt8.ofNat (v / 2 ^ 8)]

/-- The 32 bytes of the packed record. -/
def FatDirectoryItem.bytes (item : FatDirectoryItem) : List UInt8 :=
  item.filename ++ item.ext ++
    [UInt8.ofNat item.attributes, UInt8.ofNat item.reserved, UInt8.ofNat item.creationTimeTenthsOfASec] ++
    bytes16 item.creationTime ++ bytes16 item.creationDate ++ bytes16 item.lastAccess ++
    bytes16 item.high16BitsFirstCluster ++ bytes16 item.lastModificationTime ++
    bytes16 item.lastModificationDate ++ bytes16 item.low16BitsFirstCluster ++
    bytes16 item.fileSize ++ bytes16 (item.fileSize / 2 ^ 16)

/-- The characters up to a zero or a blank, wherever in the memory behind `input` it is, and
whether it was a blank; `none` when there is neither. -/
def fat16ToString (input : List UInt8) : Option (List UInt8 × Bool) :=
  match input.find? fun c => c = 0x00 || c = 0x20 with
  | none => none
  | some c => some (input.takeWhile fun c => !(c = 0x00 || c = 0x20), c = 0x20)

/-- The name of item `i`, read from the directory's memory; `none` when reading runs out of
that memory or the name does not fit its buffer. -/
def fat16GetFullRelativeFilename (items : List FatDirectoryItem) (i : Nat) : Option (List UInt8) := do
  let filename := (items.drop i).flatMap FatDirectoryItem.bytes
  let ext := filename.drop 8
  let (name, blank) ← fat16ToString filename
  if ext.headD 0 ≠ 0x00 ∧ ext.headD 0 ≠ 0x20 then
    let (suffix, blank) ← fat16ToString ext
    let full := name ++ 0x2E :: suffix
    if full.length + blank.toNat > fsMaxPathLen then none else some full
  else if name.length + blank.toNat > fsMaxPathLen then none else some name

/-! ### Items -/

variable {H : Type}

/-- `fat16_load_fat_directory`. The items that were read are never looked at. -/
def fat16LoadFatDirectory (A : Allocator H) (disk : Memory) (priv : FatPrivate) (item : FatDirectoryItem) :
    Program Stop (Ram H) Nat := do
  let directory ← kzalloc A sizeofFatDirectory
  if directory = 0 then return 0
  let cluster := fat16GetFirstCluster item
  match fat16GetTotalItemsForDirectory disk (fat16ClusterToSector priv cluster) with
  | none => stop .diverges
  | some total =>
    let directorySize := u32 (total * sizeofFatDirectoryItem)
    let items ← kzalloc A directorySize
    if items = 0 then
      kfree A directory
      return directory
    let (res, bytes) := fat16ReadInternal disk priv cluster 0 directorySize
    modify fun s => {s with mem := store s.mem items bytes}
    when (res ≠ 0) do
      kfree A items
      kfree A directory
    return directory

def fat16CloneDirectoryItem (A : Allocator H) : Program Stop (Ram H) Nat := kzalloc A sizeofFatDirectoryItem

def fat16NewFatItemForDirectoryItem (A : Allocator H) (disk : Memory) (priv : FatPrivate)
    (item : FatDirectoryItem) : Program Stop (Ram H) (Option FatItem) := do
  let fItem ← kzalloc A sizeofFatItem
  if fItem = 0 then return none
  when (item.attributes &&& fatMasksFileSubdirectory ≠ 0) do
    let _ ← fat16LoadFatDirectory A disk priv item
  -- the directory and its type are overwritten at once
  let copy ← fat16CloneDirectoryItem A
  return some ⟨fItem, copy, item, fatItemTypeFile⟩

/-- The first `n` turns of the loop of `fat16_find_item_in_directory`. -/
def fat16FindItem (A : Allocator H) (disk : Memory) (priv : FatPrivate) (directory : FatDirectory)
    (path : List UInt8) : Nat → Program Stop (Ram H) (Option FatItem)
  | 0 => return none
  | i + 1 => do
    let found ← fat16FindItem A disk priv directory path i
    match fat16GetFullRelativeFilename directory.item i, directory.item[i]? with
    | some tmpFilename, some item =>
      if istrncmp tmpFilename path fsMaxPathLen = 0 then fat16NewFatItemForDirectoryItem A disk priv item
      else return found
    | _, _ => stop .fault

def fat16FindItemInDirectory (A : Allocator H) (disk : Memory) (priv : FatPrivate) (directory : FatDirectory)
    (path : List UInt8) : Program Stop (Ram H) (Option FatItem) :=
  fat16FindItem A disk priv directory path directory.total

/-- `fat16_get_directory_entry` of a path of at least one part. -/
def fat16GetDirectoryEntry (A : Allocator H) (disk : Memory) (priv : FatPrivate) (path : PathPart)
    (next : List PathPart) : Program Stop (Ram H) (Option FatItem) := do
  let rootItem ← fat16FindItemInDirectory A disk priv priv.rootDirectory path.name
  match rootItem, next with
  | none, _ => return none
  | some currentItem, [] => return currentItem
  | some currentItem, _ :: _ =>
    if currentItem.type ≠ fatItemTypeDirectory then return none
    -- no item has this type
    else stop .fault

/-! ### Opening and closing -/

def fat16Open (A : Allocator H) (disk : Memory) (priv : FatPrivate) (path : PathPart) (next : List PathPart)
    (mode : FileMode) : Program Stop (Ram H) (Except Int OpenFile) := do
  if mode ≠ .read then return .error (-erdonly)
  let descriptor ← kzalloc A sizeofFatFileDescriptor
  if descriptor = 0 then return .error (-enomem)
  match ← fat16GetDirectoryEntry A disk priv path next with
  | none => return .error (-eio)
  | some item => return .ok ⟨descriptor, item, 0⟩

def fat16FatItemFree (A : Allocator H) (item : FatItem) : Program Stop (Ram H) Unit := do
  if item.type = fatItemTypeDirectory then
    -- no item has this type
    stop .fault
  else if item.type = fatItemTypeFile then kfree A item.item
  else
    kfree A item.addr
    stop (.panic "[FAT16 driver] Free: Item being fred is of invalid type!\n")

def fat16Close (A : Allocator H) (desc : OpenFile) : Program Stop (Ram H) Int := do
  fat16FatItemFree A desc.item
  kfree A desc.addr
  return 0

/-- The values of `file_seek_mode`. -/
inductive FileSeekMode where
  | seekSet
  | seekCur
  | seekEnd
  | other
deriving DecidableEq, Repr

/-- `fat16_seek`: the result and the descriptor after it. -/
def fat16Seek (desc : OpenFile) (offset : Nat) (seekMode : FileSeekMode) : Program Stop (Ram H) (Int × OpenFile) := do
  if desc.item.type ≠ fatItemTypeFile then return (-einvarg, desc)
  when (desc.item.item = 0) (stop .fault)
  if offset ≥ desc.item.record.fileSize then return (-eio, desc)
  match seekMode with
  | .seekSet => return (0, {desc with pos := offset})
  | .seekEnd => return (-eunimp, desc)
  | .seekCur => return (0, {desc with pos := u32 (desc.pos + offset)})
  | .other => return (-einvarg, desc)

/-- `fat16_stat`: the result and `stat->file_size`. -/
def fat16Stat (desc : OpenFile) : Program Stop (Ram H) (Int × Nat) := do
  if desc.item.type ≠ fatItemTypeFile then return (-einvarg, 0)
  when (desc.item.item = 0) (stop .fault)
  return (0, desc.item.record.fileSize)

end BasicOS

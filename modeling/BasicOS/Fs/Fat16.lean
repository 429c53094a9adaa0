import BasicOS.Disk.Streamer
import BasicOS.Status

/-! The FAT16 volume and how `fat16.c` reads it.

The header and the directory items are read from the disk at the offsets of their packed
structures. `fat16ReadInternalFromStream` is the read loop: for each turn it looks up the
cluster of the current offset, seeks to the offset inside it and reads up to a whole
cluster's bytes from there on. -/
namespace BasicOS
open Lib

abbrev basicOSFat16FatEntrySize : Nat := 0x02
abbrev basicOSFat16BadSector : Nat := 0xFF7
abbrev fatExtendedHeaderSignature : Nat := 0x29

/-- The fields of `struct fat_header` the driver reads, and the size of a sector. -/
structure FatHeader where
  bytesPerSector : Nat
  sectorsPerCluster : Nat
  numReservedSectors : Nat
  numFatCopies : Nat
  rootDirectoryEntries : Nat
  sectorsPerFat : Nat
  signature : Nat
deriving DecidableEq, Repr

structure FatDirectoryItem where
  filename : List UInt8
  ext : List UInt8
  attributes : Nat
  reserved : Nat
  creationTimeTenthsOfASec : Nat
  creationTime : Nat
  creationDate : Nat
  lastAccess : Nat
  high16BitsFirstCluster : Nat
  lastModificationTime : Nat
  lastModificationDate : Nat
  low16BitsFirstCluster : Nat
  fileSize : Nat
deriving DecidableEq, Repr

structure FatDirectory where
  item : List FatDirectoryItem
  total : Nat
  sectorPos : Nat
  endingSectorPos : Nat

structure FatPrivate where
  header : FatHeader
  rootDirectory : FatDirectory

/-! ### Mounting -/

abbrev sizeofFatDirectoryItem : Nat := 32

/-- `fat_priv->header` as read from the start of the disk. -/
def fatHeader (disk : Memory) : FatHeader where
  bytesPerSector := read16 disk 11
  sectorsPerCluster := (disk 13).toNat
  numReservedSectors := read16 disk 14
  numFatCopies := (disk 16).toNat
  rootDirectoryEntries := read16 disk 17
  sectorsPerFat := read16 disk 22
  signature := (disk 38).toNat

def fatDirectoryItemAt (disk : Memory) (pos : Nat) : FatDirectoryItem where
  filename := diskBytes disk pos 8
  ext := diskBytes disk (pos + 8) 3
  attributes := (disk (pos + 11)).toNat
  reserved := (disk (pos + 12)).toNat
  creationTimeTenthsOfASec := (disk (pos + 13)).toNat
  creationTime := read16 disk (pos + 14)
  creationDate := read16 disk (pos + 16)
  lastAccess := read16 disk (pos + 18)
  high16BitsFirstCluster := read16 disk (pos + 20)
  lastModificationTime := read16 disk (pos + 22)
  lastModificationDate := read16 disk (pos + 24)
  low16BitsFirstCluster := read16 disk (pos + 26)
  fileSize := read32 disk (pos + 28)

def fat16SectorToAbsolute (sector : Nat) : Nat := u32 (sector * diskSectorSize)

/-- The loop of `fat16_get_total_items_for_directory`: the items in use before the first
blank one. Past `2 ^ 27` items the position has wrapped around to the first and the loop
never ends. -/
def fat16GetTotalItemsFrom (disk : Memory) : Nat → Nat → Nat → Option Nat
  | 0, _, _ => none
  | fuel + 1, pos, i =>
    let next := u32 (pos + sizeofFatDirectoryItem)
    if disk pos = 0x00 then some i
    else if disk pos = 0xE5 then fat16GetTotalItemsFrom disk fuel next i
    else fat16GetTotalItemsFrom disk fuel next (i + 1)

def fat16GetTotalItemsForDirectory (disk : Memory) (directoryStartSector : Nat) : Option Nat :=
  fat16GetTotalItemsFrom disk (2 ^ 27) (fat16SectorToAbsolute directoryStartSector) 0

def rootDirSectorPos (header : FatHeader) : Nat :=
  header.numFatCopies * header.sectorsPerFat + header.numReservedSectors

def rootDirSize (header : FatHeader) : Nat := header.rootDirectoryEntries * sizeofFatDirectoryItem

/-- What a stream reads from a position on, which goes around at 4 GiB. -/
def streamFrom (disk : Memory) (start : Nat) : Memory := fun a => disk (u32 (start + a))

/-- `fat16_get_root_directory`, with memory for the items; `none` when the count never ends. -/
def fat16GetRootDirectory (disk : Memory) (header : FatHeader) : Option FatDirectory := do
  let total ← fat16GetTotalItemsForDirectory disk (rootDirSectorPos header)
  let start := fat16SectorToAbsolute (rootDirSectorPos header)
  return {
    item := (List.range header.rootDirectoryEntries).map fun i =>
      fatDirectoryItemAt (streamFrom disk start) (i * sizeofFatDirectoryItem)
    total := total
    sectorPos := rootDirSectorPos header
    endingSectorPos := rootDirSectorPos header + rootDirSize header / diskSectorSize}

/-- `fat16_resolve`, with memory for its structures. -/
def fat16Resolve (disk : Memory) : Option (Except Int FatPrivate) :=
  let header := fatHeader disk
  if header.signature ≠ fatExtendedHeaderSignature then some (.error (-efsnotsupported))
  else (fat16GetRootDirectory disk header).map fun root => .ok ⟨header, root⟩

/-! ### Clusters -/

def fat16GetFirstCluster (item : FatDirectoryItem) : Nat :=
  item.high16BitsFirstCluster ||| item.low16BitsFirstCluster

def fat16ClusterToSector (priv : FatPrivate) (cluster : Nat) : Nat :=
  u32 (priv.rootDirectory.endingSectorPos +
    u32OfInt ((s32 cluster - 2) * priv.header.sectorsPerCluster))

def fat16GetFirstFatSector (priv : FatPrivate) : Nat := priv.header.numReservedSectors

def fat16GetFatEntry (disk : Memory) (priv : FatPrivate) (cluster : Nat) : Int :=
  let fatTablePosition := u32 (fat16GetFirstFatSector priv * diskSectorSize)
  -- the position of the table is multiplied by the entry's offset, not added to it
  let pos := u32 (fatTablePosition * u32 (cluster * basicOSFat16FatEntrySize))
  let bytes := (diskstreamerRead disk pos 2).1
  (bytes.getD 0 0).toNat + 2 ^ 8 * (bytes.getD 1 0).toNat

def sizeOfClusterBytes (priv : FatPrivate) : Nat := priv.header.sectorsPerCluster * diskSectorSize

/-- The loop of `fat16_get_cluster_for_offset` with the clusters still ahead. -/
def fat16ClusterAhead (disk : Memory) (priv : FatPrivate) : Nat → Nat → Int
  | 0, clusterToUse => s32 clusterToUse
  | clusterAhead + 1, clusterToUse =>
    let entry := fat16GetFatEntry disk priv clusterToUse
    if entry = 0xFF8 ∨ entry = 0xFFF then -eio
    else if entry = basicOSFat16BadSector then -eio
    -- every number is one of the two
    else if entry ≥ 0xFF0 ∨ entry ≤ 0xFF6 then -eio
    else if entry = 0x00 then -eio
    else fat16ClusterAhead disk priv clusterAhead (u32OfInt entry)

def fat16GetClusterForOffset (disk : Memory) (priv : FatPrivate) (startingCluster : Nat) (offset : Int) : Int :=
  let clusterAhead := u32OfInt offset / sizeOfClusterBytes priv
  fat16ClusterAhead disk priv clusterAhead startingCluster

/-! ### Reading -/

/-- The read loop with its turns left: the result and the bytes written to `out`. -/
def fat16ReadInternalFrom (disk : Memory) (priv : FatPrivate) (cluster : Nat) :
    Nat → Int → Nat → Int × List UInt8
  | 0, _, _ => (0, [])
  | fuel + 1, offset, total =>
    if total = 0 then (0, [])
    else
      let clusterToUse := fat16GetClusterForOffset disk priv cluster offset
      if clusterToUse < 0 then (clusterToUse, [])
      else
        let offsetFromCluster := u32OfInt offset % sizeOfClusterBytes priv
        let startingSector := fat16ClusterToSector priv (u32OfInt clusterToUse)
        let startingPos := u32 (u32 (startingSector * diskSectorSize) + offsetFromCluster)
        let totalToRead := if total > sizeOfClusterBytes priv then sizeOfClusterBytes priv else total
        let bytes := (diskstreamerRead disk startingPos totalToRead).1
        let (res, rest) := fat16ReadInternalFrom disk priv cluster fuel
          (s32 (u32OfInt offset + totalToRead)) (total - totalToRead)
        (res, bytes ++ rest)

/-- `fat16_read_internal`; every turn reads a byte or more of a cluster that is not empty. -/
def fat16ReadInternal (disk : Memory) (priv : FatPrivate) (startingCluster : Nat) (offset : Int) (total : Nat) :
    Int × List UInt8 :=
  fat16ReadInternalFrom disk priv startingCluster total offset total

/-- `struct fat_file_descriptor` of a file. -/
structure FatFileDescriptor where
  item : FatDirectoryItem
  pos : Nat

/-- The loop of `fat16_read` with its blocks left. -/
def fat16ReadBlocks (disk : Memory) (priv : FatPrivate) (item : FatDirectoryItem) (size : Nat) :
    Nat → Int → Int × List UInt8
  | 0, _ => (0, [])
  | n + 1, offset =>
    let (res, bytes) := fat16ReadInternal disk priv (fat16GetFirstCluster item) offset size
    if res < 0 then (res, bytes)
    else
      let (res, rest) := fat16ReadBlocks disk priv item size n (s32 (u32OfInt offset + size))
      (res, bytes ++ rest)

/-- `fat16_read` of `nmemb` blocks: the result and the bytes written to `out`. -/
def fat16Read (disk : Memory) (priv : FatPrivate) (desc : FatFileDescriptor) (size nmemb : Nat) : Int × List UInt8 :=
  let (res, bytes) := fat16ReadBlocks disk priv desc.item size nmemb (s32 desc.pos)
  if res < 0 then (res, bytes) else (s32 nmemb, bytes)

end BasicOS

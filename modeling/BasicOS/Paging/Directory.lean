import BasicOS.Memory.KHeap
import BasicOS.Status

/-! Page directories as `paging.c` computes them.

A directory is a page of 1024 words, each the address of a table with flag bits in its
low twelve, and a table is a page of 1024 words of the same form. `pagingSet` and
`pagingGet` read and write those words in memory, through whatever address the
directory holds; that a directory's tables do not overlap is nowhere checked here. -/
namespace BasicOS
open Lib

abbrev pagingMasksAccessAll : Nat := 0b00000100
abbrev pagingMasksIsWritable : Nat := 0b00000010
abbrev pagingMasksIsPresent : Nat := 0b00000001

abbrev pagingTotalTableEntriesPerDirectory : Nat := 0x400
abbrev pagingTotalEntriesPerTable : Nat := 0x400
abbrev pagingPageSize : Nat := 0x1000

/-! ### Addresses -/

def pagingIsAligned (addr : Nat) : Bool := addr % pagingPageSize == 0

def pagingAlignAddress (addr : Nat) : Nat :=
  if addr % pagingPageSize ≠ 0 then u32 (addr + (pagingPageSize - addr % pagingPageSize)) else addr

def pagingAlignToLowerPageAddr (addr : Nat) : Nat := addr - addr % pagingPageSize

/-- The result and the two indexes, which an unaligned address leaves as they were. -/
def pagingGetIndexes (virtualAddress directoryIndex tableIndex : Nat) : Int × Nat × Nat :=
  if !pagingIsAligned virtualAddress then (-einvarg, directoryIndex, tableIndex)
  else (0, virtualAddress / (pagingTotalTableEntriesPerDirectory * pagingPageSize),
    virtualAddress % (pagingTotalEntriesPerTable * pagingPageSize) / pagingPageSize)

/-! ### One entry -/

def pagingSet (mem : Memory) (directory vAddr val : Nat) : Int × Memory :=
  if !pagingIsAligned vAddr then (-einvarg, mem)
  else
    let (res, dIndex, tIndex) := pagingGetIndexes vAddr 0 0
    if res < 0 then (res, mem)
    else
      let entry := read32 mem (directory + 4 * dIndex)
      let table := entry &&& 0xFFFFF000
      (res, write32 mem (table + 4 * tIndex) val)

def pagingGet (mem : Memory) (directory vAddr : Nat) : Nat :=
  let (_, directoryIndex, tableIndex) := pagingGetIndexes vAddr 0 0
  let entry := read32 mem (directory + 4 * directoryIndex)
  if entry &&& 0x1 = 0 then 0
  else
    let table := entry &&& 0xFFFFF000
    read32 mem (table + 4 * tableIndex)

def pagingGetPhysicalAddress (mem : Memory) (directory vAddr : Nat) : Nat :=
  let vAddrAligned := pagingAlignToLowerPageAddr vAddr
  let difference := vAddr - vAddrAligned
  u32 ((pagingGet mem directory vAddrAligned &&& 0xFFFFF000) + difference)

/-! ### Mappings

`chunk` is a `struct paging_4gb_memory_map *`: the word there is the directory's address. -/

def pagingMap (mem : Memory) (chunk vAddr pAddr : Nat) (flags : Int) : Int × Memory :=
  if vAddr % pagingPageSize ≠ 0 ∨ pAddr % pagingPageSize ≠ 0 then (-einvarg, mem)
  else pagingSet mem (read32 mem chunk) vAddr (pAddr ||| u32OfInt flags)

/-- The loop of `paging_map_range` with its iterations left and the last result. -/
def pagingMapRangeFrom (chunk : Nat) (flags : Int) : Nat → Memory → Nat → Nat → Int → Int × Memory
  | 0, mem, _, _, res => (res, mem)
  | count + 1, mem, vAddr, pAddr, _ =>
    let (res, mem) := pagingMap mem chunk vAddr pAddr flags
    if res < 0 then (res, mem)
    else pagingMapRangeFrom chunk flags count mem (u32 (vAddr + pagingPageSize)) (u32 (pAddr + pagingPageSize)) res

def pagingMapRange (mem : Memory) (chunk vAddr pAddr count : Nat) (flags : Int) : Int × Memory :=
  pagingMapRangeFrom chunk flags count mem vAddr pAddr 0

def pagingMapTo (mem : Memory) (chunk vAddr pAddr pAddrEnd : Nat) (flags : Int) : Int × Memory :=
  if vAddr % pagingPageSize ≠ 0 ∨ pAddr % pagingPageSize ≠ 0 ∨ pAddrEnd % pagingPageSize ≠ 0 ∨
      pAddrEnd < pAddr then (-einvarg, mem)
  else
    let totalBytes := pAddrEnd - pAddr
    let totalPages := totalBytes / pagingPageSize
    pagingMapRange mem chunk vAddr pAddr totalPages flags

/-! ### Making and freeing a directory -/

/-- `entry[0], …, entry[n - 1]` of the identity table that starts at `offset`. -/
def fillTable (entry : Nat) (offset : Int) (flags : Nat) (mem : Memory) : Nat → Memory
  | 0 => mem
  | j + 1 => write32 (fillTable entry offset flags mem j) (entry + 4 * j)
      (u32 (u32OfInt offset + j * pagingPageSize) ||| flags)

variable {H : Type}

/-- The first `n` turns of the loop over the directory's entries; the result is `offset`. -/
def genTables (A : Allocator H) (directory flags : Nat) : Nat → Program Stop (Ram H) Int
  | 0 => return 0
  | i + 1 => do
    let offset ← genTables A directory flags i
    let entry ← kzalloc A (4 * pagingTotalEntriesPerTable)
    -- the loop writes through `entry` unchecked
    Program.when (entry = 0) (Program.stop .fault)
    modify fun s => {s with mem := fillTable entry offset flags s.mem pagingTotalEntriesPerTable}
    store32 (directory + 4 * i) (entry ||| flags ||| pagingMasksIsWritable)
    return s32 (u32OfInt offset + pagingTotalEntriesPerTable * pagingPageSize)

def genPaging4gb (A : Allocator H) (flags : Nat) : Program Stop (Ram H) Nat := do
  let directory ← kzalloc A (4 * pagingTotalTableEntriesPerDirectory)
  Program.when (directory = 0)
    (Program.stop (.panic "Page directory allocation returned zero as allocated address.\n"))
  let _ ← genTables A directory flags pagingTotalTableEntriesPerDirectory
  let paging4gbChunk ← kzalloc A 4
  Program.when (paging4gbChunk = 0)
    (Program.stop (.panic "Paging memory map allocation returned zero as allocated address.\n"))
  store32 paging4gbChunk directory
  return paging4gbChunk

/-- The first `n` turns of the loop that frees the tables. -/
def freeTables (A : Allocator H) (page : Nat) : Nat → Program Stop (Ram H) Unit
  | 0 => return ()
  | i + 1 => do
    freeTables A page i
    let dEntry ← load32 page
    let entry ← load32 (dEntry + 4 * i)
    kfree A (entry &&& 0xFFFFF000)

def pagingFree4gb (A : Allocator H) (page : Nat) : Program Stop (Ram H) Unit := do
  freeTables A page pagingTotalTableEntriesPerDirectory
  kfree A (← load32 page)
  kfree A page

end BasicOS

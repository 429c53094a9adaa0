import BasicOS.Status

/-! The kernel heap as `heap.c` computes it.

A heap is a table with one entry byte per 4096-byte block and the address of the
first block. `entries` is indexed by `Int` because the C code indexes it with an
`int`: what lies outside `0 … totalEntries - 1` is whatever memory is next to the
table. `written` records every index a store went to (newest first), which the
code itself does not keep. -/
namespace BasicOS

/-! ### Constants of `config.h` and `heap.h` -/

abbrev heapBlockSize : Nat := 4096
abbrev heapBlockTableEntryTaken : Nat := 0x01
abbrev heapBlockTableEntryFree : Nat := 0x00
abbrev heapMasksAllocationExtendsNextBlock : Nat := 0x80
abbrev heapMasksAllocationIsFirstEntry : Nat := 0x40

structure HeapTable where
  entries : Int → Nat
  totalEntries : Nat
  written : List Int

structure Heap where
  table : HeapTable
  baseAddr : Nat

/-- `table->entries[i] = entry`. -/
def HeapTable.store (t : HeapTable) (i : Int) (entry : Nat) : HeapTable :=
  {t with entries := fun j => if j = i then entry else t.entries j, written := i :: t.written}

/-! ### Making a heap -/

/-- The function returns an `unsigned char`, so the error comes back as 254. -/
def heapValidateTable (ptr endAddr : Nat) (table : HeapTable) : Nat :=
  let tSize := u32 (endAddr + 2 ^ 32 - ptr)
  let totalBlocks := tSize / heapBlockSize
  if table.totalEntries ≠ totalBlocks then u32OfInt (-einvarg) % 2 ^ 8 else 0

def heapValidateAlignment (ptr : Nat) : Bool := ptr % heapBlockSize == 0

/-- `memset(table->entries, FREE, total)`: the entries from 0 up, one after another. -/
def HeapTable.clear (t : HeapTable) : Nat → HeapTable
  | 0 => t
  | n + 1 => (t.clear n).store n heapBlockTableEntryFree

/-- What `make_heap` leaves: its result, the heap it was given, and the memory at
`ptr`, whose first `sizeof(struct heap)` bytes it clears. -/
structure MadeHeap where
  res : Int
  heap : Heap
  mem : Nat → Nat

def makeHeap (heap : Heap) (mem : Nat → Nat) (ptr endAddr : Nat) (table : HeapTable) : MadeHeap :=
  if !heapValidateAlignment ptr || !heapValidateAlignment endAddr then
    ⟨-einvarg, heap, mem⟩
  else
    let mem := fun a => if ptr ≤ a ∧ a < ptr + 8 then 0 else mem a
    let res : Int := heapValidateTable ptr endAddr table
    if res < 0 then ⟨res, ⟨table, ptr⟩, mem⟩
    else ⟨res, ⟨table.clear table.totalEntries, ptr⟩, mem⟩

/-! ### Finding room -/

def heapAlignSize (size : Nat) : Nat :=
  if size % heapBlockSize = 0 then size
  else u32 (size + (heapBlockSize - size % heapBlockSize))

def heapGetEntryType (entry : Nat) : Nat := 0x0F &&& entry

/-- The scan from index `i` with `fuel` entries left; `bc` free entries have been
seen since `bs`, and `bs = -1` when the last entry seen was taken. The loop may
run out of entries with `bc` short of `totalBlocks` and then still returns `bs`. -/
def heapGetStartBlockFrom (table : HeapTable) (totalBlocks : Nat) : Nat → Nat → Nat → Int → Int
  | 0, _, _, bs => if bs = -1 then -enomem else bs
  | fuel + 1, i, bc, bs =>
    if heapGetEntryType (table.entries i) ≠ heapBlockTableEntryFree then
      heapGetStartBlockFrom table totalBlocks fuel (i + 1) 0 (-1)
    else
      let bs := if bs = -1 then s32 i else bs
      let bc := bc + 1
      if bc = totalBlocks then (if bs = -1 then -enomem else bs)
      else heapGetStartBlockFrom table totalBlocks fuel (i + 1) bc bs

def heapGetStartBlock (heap : Heap) (totalBlocks : Nat) : Int :=
  heapGetStartBlockFrom heap.table totalBlocks heap.table.totalEntries 0 0 (-1)

def heapBlockToAddress (heap : Heap) (block : Nat) : Nat :=
  u32 (heap.baseAddr + block * heapBlockSize)

def heapAddressToBlock (heap : Heap) (addr : Nat) : Int :=
  s32 (u32 (addr + 2 ^ 32 - heap.baseAddr) / heapBlockSize)

/-! ### Marking blocks -/

/-- The marking loop from index `i`: `entry` is the byte the next store writes. -/
def heapMarkTakenFrom (endBlock : Int) : Nat → Int → Nat → HeapTable → HeapTable
  | 0, _, _, table => table
  | fuel + 1, i, entry, table =>
    if i ≤ endBlock then
      let next :=
        if i ≠ endBlock - 1 then heapBlockTableEntryTaken ||| heapMasksAllocationExtendsNextBlock
        else heapBlockTableEntryTaken
      heapMarkTakenFrom endBlock fuel (i + 1) next (table.store i entry)
    else table

def heapMarkBlocksAsTaken (heap : Heap) (startBlock totalBlocks : Int) : Heap :=
  let endBlock := startBlock + totalBlocks - 1
  let entry := heapBlockTableEntryTaken ||| heapMasksAllocationIsFirstEntry
  let entry := if totalBlocks > 1 then entry ||| heapMasksAllocationExtendsNextBlock else entry
  {heap with table := heapMarkTakenFrom endBlock totalBlocks.toNat startBlock entry heap.table}

/-- The release loop: it has no length and stops after the first entry without the
`EXTENDS` bit. -/
def heapMarkFreeFrom : Nat → Nat → HeapTable → HeapTable
  | 0, _, table => table
  | fuel + 1, i, table =>
    let entry := table.entries i
    let table := table.store i heapBlockTableEntryFree
    if entry &&& heapMasksAllocationExtendsNextBlock = 0 then table
    else heapMarkFreeFrom fuel (i + 1) table

def heapMarkBlocksAsFree (heap : Heap) (startingBlock : Nat) : Heap :=
  {heap with table :=
    heapMarkFreeFrom (heap.table.totalEntries - startingBlock) startingBlock heap.table}

/-! ### The interface -/

def heapAllocBlocks (heap : Heap) (totalBlocks : Nat) : Nat × Heap :=
  -- `start_block` is unsigned: `-ENOMEM` becomes 0xFFFFFFFD and the test never fires
  let startBlock : Nat := u32OfInt (heapGetStartBlock heap totalBlocks)
  if startBlock < 0 then (0, heap)
  else
    let address := heapBlockToAddress heap startBlock
    (address, heapMarkBlocksAsTaken heap (s32 startBlock) (s32 totalBlocks))

def heapAlloc (heap : Heap) (size : Nat) : Nat × Heap :=
  let alignedSize := heapAlignSize size
  let totalBlocks := alignedSize / heapBlockSize
  heapAllocBlocks heap totalBlocks

def heapFree (heap : Heap) (ptr : Nat) : Heap :=
  heapMarkBlocksAsFree heap (u32OfInt (heapAddressToBlock heap ptr))

end BasicOS

import BasicOS.Word
import BasicOS.Lib.Memory

/-! Reading bytes from the disk, as `streamer.c` does it.

The disk is its bytes, and `disk_read_block` answers with the sector of the given LBA.
`diskstreamer_read` splits a read into sectors and gives the bytes from the stream's
position on, however they lie over the sectors (`diskstreamerRead_eq`); past 4 GiB the
position wraps to the start of the disk. -/
namespace BasicOS
open Lib

abbrev diskSectorSize : Nat := 0x200

/-- Byte `i` of the sector at `lba`. -/
def diskReadBlock (disk : Memory) (lba i : Nat) : UInt8 := disk (lba * diskSectorSize + i)

/-- The loop with the turns left: the bytes read and the position after them. -/
def diskstreamerReadFrom (disk : Memory) : Nat → Nat → Nat → List UInt8 × Nat
  | 0, pos, _ => ([], pos)
  | fuel + 1, pos, total =>
    if total = 0 then ([], pos)
    else
      let sectorNo := pos / diskSectorSize
      let offset := pos % diskSectorSize
      let overflow := offset + total ≥ diskSectorSize
      let totalToRead := if overflow then total - (offset + total - diskSectorSize) else total
      let bytes := (List.range totalToRead).map fun i => diskReadBlock disk sectorNo (offset + i)
      let (rest, pos) := diskstreamerReadFrom disk fuel (u32 (pos + totalToRead)) (total - totalToRead)
      (bytes ++ rest, pos)

/-- `diskstreamer_read` from a stream at `pos`; every turn of its loop reads a byte or more. -/
def diskstreamerRead (disk : Memory) (pos total : Nat) : List UInt8 × Nat :=
  diskstreamerReadFrom disk total pos total

/-- The `n` bytes of the disk from `pos` on. -/
def diskBytes (disk : Memory) (pos n : Nat) : List UInt8 := (List.range n).map fun i => disk (pos + i)

@[simp] theorem length_diskBytes (disk : Memory) (pos n : Nat) : (diskBytes disk pos n).length = n := by
  simp [diskBytes]

theorem getElem?_diskBytes (disk : Memory) {pos n i : Nat} (h : i < n) :
    (diskBytes disk pos n)[i]? = some (disk (pos + i)) := by
  simp [diskBytes, h]

/-- Bytes stored are read back. -/
theorem diskBytes_store (m : Memory) (a : Nat) (bytes : List UInt8) :
    diskBytes (store m a bytes) a bytes.length = bytes := by
  refine List.ext_getElem (length_diskBytes ..) fun i hi hi' => ?_
  simp only [diskBytes, List.getElem_map, List.getElem_range]
  rw [store_at m a hi']
  simp [hi']

/-- The part of a read that lies in one sector. -/
theorem diskReadBlock_bytes (disk : Memory) {pos n : Nat} :
    ((List.range n).map fun i => diskReadBlock disk (pos / diskSectorSize) (pos % diskSectorSize + i)) =
      diskBytes disk pos n := by
  unfold diskBytes
  apply List.map_congr_left
  intro i _
  unfold diskReadBlock
  rw [← Nat.add_assoc, Nat.div_add_mod']

/-- The bytes from a 32-bit position on, around its end. -/
def streamBytes (disk : Memory) (pos n : Nat) : List UInt8 := (List.range n).map fun i => disk (u32 (pos + i))

@[simp] theorem length_streamBytes (disk : Memory) (pos n : Nat) : (streamBytes disk pos n).length = n := by
  simp [streamBytes]

theorem streamBytes_of_fit (disk : Memory) {pos n : Nat} (h : pos + n ≤ 2 ^ 32) :
    streamBytes disk pos n = diskBytes disk pos n := by
  apply List.map_congr_left
  intro i hi
  rw [u32_of_lt (by have := List.mem_range.mp hi; omega)]

theorem streamBytes_add (disk : Memory) (pos m n : Nat) :
    streamBytes disk pos (m + n) = streamBytes disk pos m ++ streamBytes disk (u32 (pos + m)) n := by
  unfold streamBytes
  rw [List.range_add, List.map_append, List.map_map]
  congr 1
  apply List.map_congr_left
  intro i _
  unfold u32
  rw [Function.comp, Nat.mod_add_mod, Nat.add_assoc]

theorem streamBytes_u32 (disk : Memory) (pos n : Nat) : streamBytes disk (u32 pos) n = streamBytes disk pos n := by
  apply List.map_congr_left
  intro i _
  unfold u32
  rw [Nat.mod_add_mod]

theorem diskstreamerReadFrom_eq (disk : Memory) (fuel pos total : Nat) (hfuel : total ≤ fuel)
    (hpos : pos < 2 ^ 32) : (diskstreamerReadFrom disk fuel pos total).1 = streamBytes disk pos total := by
  induction fuel generalizing pos total with
  | zero =>
    obtain rfl : total = 0 := by omega
    rfl
  | succ fuel ih =>
    unfold diskstreamerReadFrom
    by_cases hzero : total = 0
    · rw [if_pos hzero, hzero]
      rfl
    · rw [if_neg hzero]
      simp only [diskReadBlock_bytes]
      -- what this turn reads is at least a byte, at most what is left, and in one sector
      generalize hread : (if pos % diskSectorSize + total ≥ diskSectorSize then
        total - (pos % diskSectorSize + total - diskSectorSize) else total) = n
      have hn : 1 ≤ n ∧ n ≤ total ∧ pos + n ≤ 2 ^ 32 := by
        rw [← hread]
        simp only [diskSectorSize]
        split <;> omega
      rw [ih _ _ (by omega) (u32_lt _), ← streamBytes_of_fit disk hn.2.2, ← streamBytes_add,
        Nat.add_sub_cancel' hn.2.1]

/-- **The stream delivers the disk's bytes.** -/
theorem diskstreamerRead_eq (disk : Memory) {pos : Nat} (total : Nat) (hpos : pos < 2 ^ 32) :
    (diskstreamerRead disk pos total).1 = streamBytes disk pos total :=
  diskstreamerReadFrom_eq disk total pos total (Nat.le_refl _) hpos

end BasicOS

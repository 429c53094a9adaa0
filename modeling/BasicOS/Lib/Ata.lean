import BasicOS.Lib.Memory

/-! An ATA disk read by programmed input.

The host writes a sector count and a 28-bit sector number to five registers and the read command
to a sixth. The drive is then busy for as long as it likes, offers a sector as 256 words of its
data register, and is busy again until the next. `Ata.delay` says for every sector it ever serves
how many looks at the status register find it busy; a host that polls gets past any such delay.
Only the first drive is there, and only with sector numbers. -/
namespace BasicOS.Lib

def ataSectorSize : Nat := 512

structure Ata where
  disk : Memory
  /-- How often the status is busy before each sector served. -/
  delay : Nat → Nat
  count : Nat
  lbaLow : Nat
  lbaMid : Nat
  lbaHigh : Nat
  device : Nat
  /-- Sectors served since it was switched on. -/
  served : Nat
  /-- The sector that is read. -/
  lba : Nat
  /-- Sectors of the command not yet read, this one among them. -/
  left : Nat
  busy : Nat
  /-- The words of the sector already read. -/
  word : Nat

namespace Ata

def portCount : Nat := 0x1F2
def portLbaLow : Nat := 0x1F3
def portLbaMid : Nat := 0x1F4
def portLbaHigh : Nat := 0x1F5
def portDevice : Nat := 0x1F6
def portCommand : Nat := 0x1F7

/-- READ SECTORS, for the first drive and by sector number; a count of 0 is 256. -/
def readSectors (d : Ata) : Ata :=
  if d.device.testBit 6 ∧ !d.device.testBit 4 then
    {d with
      lba := d.lbaLow + 2 ^ 8 * d.lbaMid + 2 ^ 16 * d.lbaHigh + 2 ^ 24 * (d.device % 16)
      left := if d.count = 0 then 256 else d.count
      busy := d.delay d.served
      word := 0}
  else d

/-- A byte written to a port. -/
def out (d : Ata) (port value : Nat) : Ata :=
  let v := value % 2 ^ 8
  if port = portCount then {d with count := v}
  else if port = portLbaLow then {d with lbaLow := v}
  else if port = portLbaMid then {d with lbaMid := v}
  else if port = portLbaHigh then {d with lbaHigh := v}
  else if port = portDevice then {d with device := v}
  else if port = portCommand ∧ v = 0x20 then d.readSectors
  else d

/-- The status register: ready, busy, or ready with data. -/
def status (d : Ata) : Nat × Ata :=
  if d.left = 0 then (0x50, d)
  else if d.busy = 0 then (0x58, d)
  else (0x80, {d with busy := d.busy - 1})

/-- Behind the last word of a sector. -/
def nextSector (d : Ata) : Ata :=
  {d with served := d.served + 1, lba := d.lba + 1, left := d.left - 1, busy := d.delay (d.served + 1), word := 0}

/-- A word of the data register; with no data there the bus floats. -/
def data (d : Ata) : Nat × Ata :=
  if d.left = 0 ∨ d.busy ≠ 0 then (0xFFFF, d)
  else
    (read16 d.disk (ataSectorSize * d.lba + 2 * d.word),
      if d.word = 255 then d.nextSector else {d with word := d.word + 1})

/-! ### Words and sectors -/

variable {d : Ata}

theorem status_busy (hleft : d.left ≠ 0) (hbusy : d.busy ≠ 0) : d.status = (0x80, {d with busy := d.busy - 1}) := by
  rw [status, if_neg hleft, if_neg hbusy]

theorem status_data (hleft : d.left ≠ 0) (hbusy : d.busy = 0) : d.status = (0x58, d) := by
  rw [status, if_neg hleft, if_pos hbusy]

theorem data_word (hleft : d.left ≠ 0) (hbusy : d.busy = 0) (hword : d.word < 255) :
    d.data = (read16 d.disk (ataSectorSize * d.lba + 2 * d.word), {d with word := d.word + 1}) := by
  rw [data, if_neg (by simp [hleft, hbusy]), if_neg (by omega)]

theorem data_last (hleft : d.left ≠ 0) (hbusy : d.busy = 0) (hword : d.word = 255) :
    d.data = (read16 d.disk (ataSectorSize * d.lba + 2 * d.word), d.nextSector) := by
  rw [data, if_neg (by simp [hleft, hbusy]), if_pos hword]

/-- A drive that has nothing more to send. -/
def Idle (d : Ata) : Prop := d.left = 0

/-- A command is about to send `left` sectors from `lba` on. -/
structure Sending (d : Ata) (disk : Memory) (lba left : Nat) : Prop where
  disk : d.disk = disk
  lba : d.lba = lba
  left : d.left = left
  word : d.word = 0

theorem Sending.nextSector {disk : Memory} {lba left : Nat} (h : d.Sending disk lba (left + 1)) :
    d.nextSector.Sending disk (lba + 1) left := by
  refine ⟨h.disk, ?_, ?_, rfl⟩
  · show d.lba + 1 = _
    rw [h.lba]
  · show d.left - 1 = _
    rw [h.left, Nat.add_sub_cancel]

end Ata

end BasicOS.Lib

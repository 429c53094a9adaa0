import BasicOS.Lib.Memory

/-! Address translation of 32-bit IA-32 with pages of 4 KiB.

The processor finds the word of a page through two tables in memory: the directory's word
gives the address of a table, the table's word the frame. Bit 0 of a word says present,
bit 1 writable, bit 2 open to user mode, and a user access needs the bits of both words.
Addresses are below `2 ^ 32`. -/
namespace BasicOS.Lib

/-- The directory's word for the address `v`. -/
def directoryEntry (m : Memory) (directory v : Nat) : Nat := read32 m (directory + 4 * (v / 2 ^ 22))

/-- The word of the page of `v`. -/
def pageEntry (m : Memory) (directory v : Nat) : Nat :=
  read32 m ((directoryEntry m directory v &&& 0xFFFFF000) + 4 * (v / 2 ^ 12 % 2 ^ 10))

/-- The physical address of `v`. -/
def physicalAddress (m : Memory) (directory v : Nat) : Nat := (pageEntry m directory v &&& 0xFFFFF000) + v % 2 ^ 12

/-- User mode may write at `v`. -/
def UserWritable (m : Memory) (directory v : Nat) : Prop :=
  directoryEntry m directory v % 8 = 7 ∧ pageEntry m directory v % 8 = 7

instance (m : Memory) (directory v : Nat) : Decidable (UserWritable m directory v) := by
  unfold UserWritable
  infer_instance

/-- User mode may read at `v`. -/
def UserReadable (m : Memory) (directory v : Nat) : Prop :=
  directoryEntry m directory v &&& 5 = 5 ∧ pageEntry m directory v &&& 5 = 5

instance (m : Memory) (directory v : Nat) : Decidable (UserReadable m directory v) := by
  unfold UserReadable
  infer_instance

/-- The address is translated. -/
def Present (m : Memory) (directory v : Nat) : Prop :=
  directoryEntry m directory v % 2 = 1 ∧ pageEntry m directory v % 2 = 1

instance (m : Memory) (directory v : Nat) : Decidable (Present m directory v) := by
  unfold Present
  infer_instance

/-- Memory as user mode reads it. -/
def userView (m : Memory) (directory : Nat) : Memory := fun v => m (physicalAddress m directory (v % 2 ^ 32))

variable {m : Memory} {directory v w : Nat}

theorem UserReadable.present_and (h : UserReadable m directory v) : directoryEntry m directory v &&& 0x1 ≠ 0 := by
  have hand := congrArg (· &&& 1) h.1
  simp only [Nat.and_assoc] at hand
  rw [show (5 &&& 1 : Nat) = 1 by decide] at hand
  rw [hand]
  decide

theorem UserWritable.present_and (h : UserWritable m directory v) : directoryEntry m directory v &&& 0x1 ≠ 0 := by
  rw [Nat.and_one_is_mod]
  have := h.1
  omega

/-- Addresses of one page have the same words. -/
theorem directoryEntry_page (h : v / 2 ^ 12 = w / 2 ^ 12) : directoryEntry m directory v = directoryEntry m directory w := by
  unfold directoryEntry
  rw [show v / 2 ^ 22 = w / 2 ^ 22 by omega]

theorem pageEntry_page (h : v / 2 ^ 12 = w / 2 ^ 12) : pageEntry m directory v = pageEntry m directory w := by
  unfold pageEntry
  rw [directoryEntry_page h, h]

theorem userWritable_page (h : v / 2 ^ 12 = w / 2 ^ 12) : UserWritable m directory v ↔ UserWritable m directory w := by
  unfold UserWritable
  rw [directoryEntry_page h, pageEntry_page h]

theorem userReadable_page (h : v / 2 ^ 12 = w / 2 ^ 12) : UserReadable m directory v ↔ UserReadable m directory w := by
  unfold UserReadable
  rw [directoryEntry_page h, pageEntry_page h]

/-- Within a page, addresses go on as in the frame. -/
theorem physicalAddress_add {k : Nat} (h : v % 2 ^ 12 + k < 2 ^ 12) :
    physicalAddress m directory (v + k) = physicalAddress m directory v + k := by
  have hpage : (v + k) / 2 ^ 12 = v / 2 ^ 12 := by omega
  have hoffset : (v + k) % 2 ^ 12 = v % 2 ^ 12 + k := by omega
  unfold physicalAddress
  rw [pageEntry_page hpage, hoffset, Nat.add_assoc]

end BasicOS.Lib

import BasicOS.Lib.Extent
import Mathlib.Data.List.GetD

/-! Byte memory with little-endian words.

A `Memory` has a byte at every address. A word is read and written byte by byte, so
two words overlap exactly where their bytes do: a word survives a write outside its
bytes (`read32_write32_apart`) and is what was last written at its own address
(`read32_write32`). `SameOutside e m m'` is the frame of every operation here: the
memory changed at most inside the extent `e`. -/
namespace BasicOS.Lib

/-- A byte at every address. -/
abbrev Memory := Nat → UInt8

/-- The little-endian word of four bytes at `a`. -/
def read32 (m : Memory) (a : Nat) : Nat :=
  (m a).toNat + 2 ^ 8 * (m (a + 1)).toNat + 2 ^ 16 * (m (a + 2)).toNat + 2 ^ 24 * (m (a + 3)).toNat

def write32 (m : Memory) (a v : Nat) : Memory := fun b =>
  if b = a then UInt8.ofNat v
  else if b = a + 1 then UInt8.ofNat (v / 2 ^ 8)
  else if b = a + 2 then UInt8.ofNat (v / 2 ^ 16)
  else if b = a + 3 then UInt8.ofNat (v / 2 ^ 24)
  else m b

/-- The little-endian word of two bytes at `a`. -/
def read16 (m : Memory) (a : Nat) : Nat := (m a).toNat + 2 ^ 8 * (m (a + 1)).toNat

/-- `n` copies of the byte `v` from `a` on. -/
def fill (m : Memory) (a n : Nat) (v : UInt8) : Memory := fun b =>
  if a ≤ b ∧ b < a + n then v else m b

/-- The bytes from `a` on. -/
def store (m : Memory) (a : Nat) (bytes : List UInt8) : Memory := fun b =>
  if a ≤ b ∧ b < a + bytes.length then bytes.getD (b - a) 0 else m b

/-- The memory has the bytes from `a` on. -/
def Stored (m : Memory) (a : Nat) (bytes : List UInt8) : Prop := ∀ i, i < bytes.length → m (a + i) = bytes.getD i 0

/-- The memory differs from `m` at most inside the extent. -/
def SameOutside (e : Extent) (m m' : Memory) : Prop := ∀ b, ¬ e.Holds b → m' b = m b

theorem SameOutside.refl (e : Extent) (m : Memory) : SameOutside e m m := fun _ _ => rfl

theorem SameOutside.trans {e : Extent} {m m' m'' : Memory} (h : SameOutside e m m')
    (h' : SameOutside e m' m'') : SameOutside e m m'' :=
  fun b hb => (h' b hb).trans (h b hb)

theorem SameOutside.mono {e f : Extent} {m m' : Memory} (h : SameOutside e m m')
    (hsub : ∀ b, e.Holds b → f.Holds b) : SameOutside f m m' :=
  fun b hb => h b fun hbe => hb (hsub b hbe)

theorem read32_lt (m : Memory) (a : Nat) : read32 m a < 2 ^ 32 := by
  have h0 := (m a).toNat_lt
  have h1 := (m (a + 1)).toNat_lt
  have h2 := (m (a + 2)).toNat_lt
  have h3 := (m (a + 3)).toNat_lt
  unfold read32
  omega

/-- A word depends on its own bytes only. -/
theorem read32_congr {m m' : Memory} {a : Nat} (h : ∀ b, a ≤ b → b < a + 4 → m' b = m b) :
    read32 m' a = read32 m a := by
  unfold read32
  rw [h a (by omega) (by omega), h (a + 1) (by omega) (by omega), h (a + 2) (by omega) (by omega),
    h (a + 3) (by omega) (by omega)]

theorem read32_write32 (m : Memory) (a : Nat) {v : Nat} (hv : v < 2 ^ 32) :
    read32 (write32 m a v) a = v := by
  simp only [read32, write32, if_true, UInt8.toNat_ofNat', if_neg (show a + 1 ≠ a by omega),
    if_neg (show a + 2 ≠ a by omega), if_neg (show a + 2 ≠ a + 1 by omega),
    if_neg (show a + 3 ≠ a by omega), if_neg (show a + 3 ≠ a + 1 by omega),
    if_neg (show a + 3 ≠ a + 2 by omega)]
  omega

theorem write32_byte (m : Memory) (a v : Nat) {j : Nat} (hj : j < 4) :
    write32 m a v (a + j) = UInt8.ofNat (v / 2 ^ (8 * j)) := by
  unfold write32
  obtain rfl | rfl | rfl | rfl : j = 0 ∨ j = 1 ∨ j = 2 ∨ j = 3 := by omega
  · rw [if_pos (Nat.add_zero a), Nat.mul_zero, Nat.pow_zero, Nat.div_one]
  · rw [if_neg (by omega), if_pos rfl]
  · rw [if_neg (by omega), if_neg (by omega), if_pos rfl]
  · rw [if_neg (by omega), if_neg (by omega), if_neg (by omega), if_pos rfl]

/-- The later write to an address wins. -/
theorem write32_write32 (m : Memory) (a v w : Nat) : write32 (write32 m a v) a w = write32 m a w := by
  funext b
  unfold write32
  split <;> [rfl; split] <;> [rfl; split] <;> [rfl; split] <;> rfl

/-- Writing a word back over a change of its bytes. -/
theorem write32_read32 (m : Memory) (a : Nat) : write32 m a (read32 m a) = m := by
  have h0 := (m a).toNat_lt
  have h1 := (m (a + 1)).toNat_lt
  have h2 := (m (a + 2)).toNat_lt
  have h3 := (m (a + 3)).toNat_lt
  have hbyte : ∀ (c : UInt8) (n : Nat), n % 2 ^ 8 = c.toNat → UInt8.ofNat n = c := fun c n h =>
    UInt8.toNat_inj.mp (UInt8.toNat_ofNat'.trans h)
  funext b
  unfold write32 read32
  by_cases hb0 : b = a
  · rw [if_pos hb0, hb0]
    exact hbyte _ _ (by omega)
  rw [if_neg hb0]
  by_cases hb1 : b = a + 1
  · rw [if_pos hb1, hb1]
    exact hbyte _ _ (by omega)
  rw [if_neg hb1]
  by_cases hb2 : b = a + 2
  · rw [if_pos hb2, hb2]
    exact hbyte _ _ (by omega)
  rw [if_neg hb2]
  by_cases hb3 : b = a + 3
  · rw [if_pos hb3, hb3]
    exact hbyte _ _ (by omega)
  · rw [if_neg hb3]

theorem sameOutside_write32 (m : Memory) (a v : Nat) : SameOutside ⟨a, 4⟩ m (write32 m a v) := by
  intro b hb
  rw [Extent.holds_mk] at hb
  unfold write32
  rw [if_neg (by omega), if_neg (by omega), if_neg (by omega), if_neg (by omega)]

/-- A byte outside the word written. -/
theorem write32_apart (m : Memory) {a b : Nat} (v : Nat) (h : b < a ∨ a + 4 ≤ b) : write32 m a v b = m b :=
  sameOutside_write32 m a v b (by rw [Extent.holds_mk]; omega)

theorem sameOutside_fill (m : Memory) (a n : Nat) (v : UInt8) : SameOutside ⟨a, n⟩ m (fill m a n v) :=
  fun _ hb => if_neg hb

theorem sameOutside_store (m : Memory) (a : Nat) (bytes : List UInt8) :
    SameOutside ⟨a, bytes.length⟩ m (store m a bytes) := fun _ hb => if_neg hb

theorem store_at (m : Memory) (a : Nat) {bytes : List UInt8} {i : Nat} (hi : i < bytes.length) :
    store m a bytes (a + i) = bytes.getD i 0 := by
  unfold store
  rw [if_pos (by omega), Nat.add_sub_cancel_left]

theorem stored_store (m : Memory) (a : Nat) (bytes : List UInt8) : Stored (store m a bytes) a bytes :=
  fun _ hi => store_at m a hi

theorem stored_append {m : Memory} {a : Nat} {xs ys : List UInt8} :
    Stored m a (xs ++ ys) ↔ Stored m a xs ∧ Stored m (a + xs.length) ys := by
  constructor
  · intro h
    refine ⟨fun i hi => ?_, fun i hi => ?_⟩
    · rw [h i (by rw [List.length_append]; omega), List.getD_append _ _ _ _ hi]
    · rw [Nat.add_assoc, h (xs.length + i) (by rw [List.length_append]; omega),
        List.getD_append_right _ _ _ _ (Nat.le_add_right ..), Nat.add_sub_cancel_left]
  · rintro ⟨hxs, hys⟩ i hi
    rw [List.length_append] at hi
    by_cases hfirst : i < xs.length
    · rw [hxs i hfirst, List.getD_append _ _ _ _ hfirst]
    · rw [List.getD_append_right _ _ _ _ (by omega), ← hys (i - xs.length) (by omega), Nat.add_assoc,
        Nat.add_sub_cancel' (by omega)]

theorem stored_cons {m : Memory} {a : Nat} {c : UInt8} {rest : List UInt8} :
    Stored m a (c :: rest) ↔ m a = c ∧ Stored m (a + 1) rest := by
  rw [← List.singleton_append, stored_append, List.length_singleton]
  refine and_congr_left fun _ => ⟨fun h => h 0 (Nat.succ_pos 0), fun h i hi => ?_⟩
  obtain rfl := Nat.lt_one_iff.mp hi
  exact h

theorem store_nil (m : Memory) (a : Nat) : store m a [] = m := by
  funext b
  exact if_neg (by simp)

/-- Bytes stored behind others. -/
theorem store_append (m : Memory) (a : Nat) (xs ys : List UInt8) :
    store (store m a xs) (a + xs.length) ys = store m a (xs ++ ys) := by
  funext b
  unfold store
  rw [List.length_append]
  by_cases hfirst : a ≤ b ∧ b < a + xs.length
  · rw [if_neg (by omega), if_pos hfirst, if_pos (by omega), List.getD_append _ _ _ _ (by omega)]
  · by_cases hsecond : a + xs.length ≤ b ∧ b < a + xs.length + ys.length
    · rw [if_pos hsecond, if_pos (by omega), List.getD_append_right _ _ _ _ (by omega), Nat.sub_add_eq]
    · rw [if_neg hsecond, if_neg hfirst, if_neg (by omega)]

/-- Bytes stored elsewhere, and a word. -/
theorem store_write32 (m : Memory) {a b : Nat} {bytes : List UInt8} (v : Nat) (h : a + bytes.length ≤ b ∨ b + 4 ≤ a) :
    store (write32 m b v) a bytes = write32 (store m a bytes) b v := by
  funext c
  by_cases hc : b ≤ c ∧ c < b + 4
  · unfold store
    rw [if_neg (by omega)]
    unfold write32
    simp only
    rw [if_neg (show ¬ (a ≤ c ∧ c < a + bytes.length) by omega)]
  · rw [write32_apart _ v (by omega)]
    unfold store
    rw [write32_apart _ v (by omega)]

/-- A word outside the extent a change stays in keeps its value. -/
theorem SameOutside.read32 {e : Extent} {m m' : Memory} (h : SameOutside e m m') {a : Nat}
    (ha : a + 4 ≤ e.start ∨ e.start + e.len ≤ a) : read32 m' a = Lib.read32 m a :=
  read32_congr fun b h1 h2 => h b (by unfold Extent.Holds; omega)

theorem read32_write32_apart (m : Memory) {a b : Nat} (v : Nat) (h : b + 4 ≤ a ∨ a + 4 ≤ b) :
    read32 (write32 m a v) b = read32 m b :=
  (sameOutside_write32 m a v).read32 h

end BasicOS.Lib

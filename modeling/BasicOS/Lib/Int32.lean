import Mathlib.Tactic.Common
import Mathlib.Tactic.Ring

/-! Signed 32-bit arithmetic, where it stays in range and where it wraps.

What fits 32 bits is what the operations of the integers give; a product is one of a
commutative ring, wrapped or not, so that powers are regrouped as usual (`pow_twice`). -/
namespace BasicOS.Lib

variable {a b : Int32}

theorem toInt_eq_of_fits {z : Int} {c : Int32} (hc : c.toInt = z.bmod (2 ^ 32)) (hge : -2 ^ 31 ≤ z)
    (hlt : z < 2 ^ 31) : c.toInt = z := by
  rw [hc]
  exact Int.bmod_eq_of_le_mul_two (by omega) (by omega)

theorem toInt_sub_of_fits (hge : -2 ^ 31 ≤ a.toInt - b.toInt) (hlt : a.toInt - b.toInt < 2 ^ 31) :
    (a - b).toInt = a.toInt - b.toInt := toInt_eq_of_fits (Int32.toInt_sub a b) hge hlt

theorem toInt_add_of_fits (hge : -2 ^ 31 ≤ a.toInt + b.toInt) (hlt : a.toInt + b.toInt < 2 ^ 31) :
    (a + b).toInt = a.toInt + b.toInt := toInt_eq_of_fits (Int32.toInt_add a b) hge hlt

theorem toInt_neg_of_fits (h : a.toInt ≠ -2 ^ 31) : (-a).toInt = -a.toInt := by
  have hge := a.le_toInt
  have hlt := a.toInt_lt
  exact toInt_eq_of_fits (Int32.toInt_neg a) (by omega) (by omega)

/-- The power wraps as the product does. -/
theorem ofInt_pow (z : Int) (n : Nat) : Int32.ofInt (z ^ n) = Int32.ofInt z ^ n := by
  induction n with
  | zero =>
    rw [Int.pow_zero, Int32.pow_zero]
    rfl
  | succ n ih => rw [Int.pow_succ, Int32.ofInt_mul, ih, Int32.pow_succ]

theorem one_pow_int32 (n : Nat) : (1 : Int32) ^ n = 1 := by
  induction n with
  | zero => rfl
  | succ n ih => rw [Int32.pow_succ, ih, Int32.mul_one]

theorem pow_twice (a : Int32) (n : Nat) : a ^ (2 * n) = (a * a) ^ n := by
  induction n with
  | zero => rfl
  | succ n ih =>
    rw [Nat.mul_succ, Int32.pow_succ, Int32.pow_succ, ih, Int32.pow_succ, Int32.mul_assoc]

/-- A power that fits. -/
theorem toInt_pow_of_fits {n : Nat} (hge : -2 ^ 31 ≤ a.toInt ^ n) (hlt : a.toInt ^ n < 2 ^ 31) :
    (a ^ n).toInt = a.toInt ^ n := by
  rw [← Int32.ofInt_toInt a, ← ofInt_pow, Int32.ofInt_toInt]
  exact Int32.toInt_ofInt_of_le hge hlt

end BasicOS.Lib

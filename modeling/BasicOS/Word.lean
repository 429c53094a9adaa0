import Mathlib.Tactic.Ring
import Mathlib.Tactic.Common

/-! The 32-bit integers of the kernel's C.

`size_t`, `unsigned long` and every pointer are 32 bits wide on i686, and their
arithmetic wraps. The model keeps them as `Nat` below `2 ^ 32` and writes the
wrap where a result can leave that range. `int` is `Int`; the conversions
between the two are those of the compiler the Makefile names. -/
namespace BasicOS

/-- Unsigned arithmetic reduced to 32 bits. -/
def u32 (n : Nat) : Nat := n % 2 ^ 32

/-- An `int` converted to `unsigned int`. -/
def u32OfInt (z : Int) : Nat := (z % 2 ^ 32).toNat

/-- An `unsigned int` converted to `int`. -/
def s32 (n : Nat) : Int := if u32 n < 2 ^ 31 then (u32 n : Int) else (u32 n : Int) - 2 ^ 32

theorem u32_lt (n : Nat) : u32 n < 2 ^ 32 := Nat.mod_lt _ (by decide)

@[simp] theorem u32_of_lt {n : Nat} (h : n < 2 ^ 32) : u32 n = n := Nat.mod_eq_of_lt h

@[simp] theorem u32OfInt_natCast (n : Nat) : u32OfInt (n : Int) = u32 n := by
  unfold u32OfInt u32
  omega

@[simp] theorem s32_of_lt {n : Nat} (h : n < 2 ^ 31) : s32 n = n := by
  have hu : u32 n = n := u32_of_lt (by omega)
  rw [s32, hu, if_pos h]

/-- The round trip through `int` loses nothing. -/
@[simp] theorem u32OfInt_s32 (n : Nat) : u32OfInt (s32 n) = u32 n := by
  have := u32_lt n
  unfold s32 u32OfInt
  split <;> omega

end BasicOS

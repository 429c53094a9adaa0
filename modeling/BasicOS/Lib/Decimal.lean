import Mathlib.Data.Nat.Digits.Lemmas
import Mathlib.Data.List.TakeWhile

/-! Decimal texts.

`numeral n` has the digits of a natural number, the most significant one first, and
`decimal z` the sign of an integer as well. It is the only text that has no more than that
(`canonical_iff`): a minus just for negative numbers, digits only, no zero in front, and the
value of the number. `leadingValue` reads a number off the front of any text, and undoes
`decimal` (`leadingValue_decimal`). -/
namespace BasicOS.Lib

/-- `'-'`. -/
abbrev minus : UInt8 := 45

def digitChar (d : Nat) : UInt8 := UInt8.ofNat (48 + d)

def isDecimal (c : UInt8) : Bool := 48 ≤ c && c ≤ 57

def digitValue (c : UInt8) : Nat := c.toNat - 48

/-- The digits of a number; zero has none. -/
def digitText (n : Nat) : List UInt8 := ((Nat.digits 10 n).map digitChar).reverse

def numeral (n : Nat) : List UInt8 := if n = 0 then [digitChar 0] else digitText n

def decimal (z : Int) : List UInt8 := if z < 0 then minus :: numeral z.natAbs else numeral z.natAbs

/-- The lowest `k` digits of a number, the highest of them first. -/
def fixedDigits : Nat → Nat → List Nat
  | 0, _ => []
  | k + 1, n => n / 10 ^ k :: fixedDigits k (n % 10 ^ k)

/-- The value of a row of digits. -/
def digitsValue (digits : List UInt8) : Nat := Nat.ofDigits 10 (digits.reverse.map digitValue)

/-- The value of an optional minus and the digits behind it, up to the first other character. -/
def leadingValue (text : List UInt8) : Int :=
  if text.head? = some minus then -(digitsValue (text.tail.takeWhile isDecimal) : Int)
  else digitsValue (text.takeWhile isDecimal)

/-- The canonical text of an integer. -/
structure Canonical (z : Int) (text : List UInt8) : Prop where
  form : ∃ digits, text = (if z < 0 then [minus] else []) ++ digits ∧ digits ≠ [] ∧
    (∀ c ∈ digits, isDecimal c = true) ∧ (digits.head? = some (digitChar 0) → digits = [digitChar 0]) ∧
    digitsValue digits = z.natAbs

variable {n d : Nat}

/-! ### Single digits -/

theorem toNat_digitChar (h : d < 10) : (digitChar d).toNat = 48 + d := by
  unfold digitChar
  rw [UInt8.toNat_ofNat']
  exact Nat.mod_eq_of_lt (by omega)

/-- The character of a digit, computed in `int`. -/
theorem ofInt_digit (h : d < 10) : UInt8.ofInt (48 + d : Nat) = digitChar d := by
  unfold UInt8.ofInt digitChar
  apply UInt8.toNat_inj.mp
  rw [UInt8.toNat_ofNat', UInt8.toNat_ofNat']
  omega

theorem digitValue_digitChar (h : d < 10) : digitValue (digitChar d) = d := by
  unfold digitValue
  rw [toNat_digitChar h, Nat.add_sub_cancel_left]

theorem isDecimal_iff {c : UInt8} : isDecimal c = true ↔ 48 ≤ c.toNat ∧ c.toNat ≤ 57 := by
  unfold isDecimal
  rw [Bool.and_eq_true, decide_eq_true_iff, decide_eq_true_iff, UInt8.le_iff_toNat_le, UInt8.le_iff_toNat_le]
  rfl

theorem isDecimal_digitChar (h : d < 10) : isDecimal (digitChar d) = true := by
  rw [isDecimal_iff, toNat_digitChar h]
  omega

theorem digitValue_lt {c : UInt8} (h : isDecimal c = true) : digitValue c < 10 := by
  rw [isDecimal_iff] at h
  unfold digitValue
  omega

theorem digitChar_digitValue {c : UInt8} (h : isDecimal c = true) : digitChar (digitValue c) = c := by
  have hlt := digitValue_lt h
  rw [isDecimal_iff] at h
  apply UInt8.toNat_inj.mp
  rw [toNat_digitChar hlt]
  unfold digitValue
  omega

/-! ### Numerals -/

/-- The last digit is the remainder. -/
theorem digitText_pos (h : 0 < n) : digitText n = digitText (n / 10) ++ [digitChar (n % 10)] := by
  unfold digitText
  rw [Nat.digits_def' (by decide) h, List.map_cons, List.reverse_cons]

theorem numeral_pos (h : 0 < n) : numeral n = digitText n := if_neg (Nat.ne_of_gt h)

theorem numeral_of_lt (h : n < 10) : numeral n = [digitChar n] := by
  unfold numeral
  by_cases hzero : n = 0
  · rw [if_pos hzero, hzero]
  · rw [if_neg hzero, digitText, Nat.digits_of_lt 10 n hzero h]
    rfl

theorem numeral_of_ge (h : 10 ≤ n) : numeral n = numeral (n / 10) ++ [digitChar (n % 10)] := by
  rw [numeral_pos (by omega), numeral_pos (by omega), digitText_pos (by omega)]

theorem numeral_ne_nil (n : Nat) : numeral n ≠ [] := by
  rcases Nat.lt_or_ge n 10 with hlt | hge
  · rw [numeral_of_lt hlt]
    exact List.cons_ne_nil _ _
  · rw [numeral_of_ge hge]
    exact List.append_ne_nil_of_right_ne_nil _ (List.cons_ne_nil _ _)

theorem isDecimal_of_mem_numeral {c : UInt8} (h : c ∈ numeral n) : isDecimal c = true := by
  unfold numeral digitText at h
  split at h
  · rw [List.mem_singleton.mp h]
    exact isDecimal_digitChar (by decide)
  · rw [List.mem_reverse, List.mem_map] at h
    obtain ⟨d, hd, rfl⟩ := h
    exact isDecimal_digitChar (Nat.digits_lt_base (by decide) hd)

theorem digitsValue_numeral (n : Nat) : digitsValue (numeral n) = n := by
  unfold digitsValue numeral digitText
  split
  · rename_i hzero
    rw [hzero]
    rfl
  · rw [List.reverse_reverse, List.map_map, List.map_congr_left (g := id), List.map_id, Nat.ofDigits_digits]
    intro d hd
    exact digitValue_digitChar (Nat.digits_lt_base (by decide) hd)

theorem numeral_leading (h : (numeral n).head? = some (digitChar 0)) : numeral n = [digitChar 0] := by
  by_cases hzero : n = 0
  · rw [hzero]
    rfl
  · unfold numeral digitText at h
    rw [if_neg hzero, List.head?_reverse, List.getLast?_map, List.getLast?_eq_getLast_of_ne_nil
      (Nat.digits_ne_nil_iff_ne_zero.mpr hzero), Option.map_some, Option.some_inj] at h
    have hlast := congrArg digitValue h
    rw [digitValue_digitChar (Nat.digits_lt_base (by decide) (List.getLast_mem _)), digitValue_digitChar (by decide)]
      at hlast
    exact absurd hlast (Nat.getLast_digit_ne_zero 10 hzero)

/-- Digits with no zero in front are those of their value. -/
theorem numeral_digitsValue {digits : List UInt8} (hne : digits ≠ []) (hdigits : ∀ c ∈ digits, isDecimal c = true)
    (hleading : digits.head? = some (digitChar 0) → digits = [digitChar 0]) :
    numeral (digitsValue digits) = digits := by
  by_cases hzero : digits.head? = some (digitChar 0)
  · rw [hleading hzero]
    rfl
  · have hvalues : Nat.digits 10 (digitsValue digits) = digits.reverse.map digitValue := by
      apply Nat.digits_ofDigits 10 (by decide)
      · intro d hd
        rw [List.mem_map] at hd
        obtain ⟨c, hc, rfl⟩ := hd
        exact digitValue_lt (hdigits c (List.mem_reverse.mp hc))
      · intro hvalue hlast
        obtain ⟨c, rest, rfl⟩ := List.exists_cons_of_ne_nil hne
        simp only [List.reverse_cons, List.map_append, List.map_cons, List.map_nil, List.getLast_append_singleton]
          at hlast
        apply hzero
        rw [List.head?_cons, ← digitChar_digitValue (hdigits c (List.mem_cons_self ..)), hlast]
    have hpos : digitsValue digits ≠ 0 := by
      intro h
      rw [h, Nat.digits_zero, eq_comm, List.map_eq_nil_iff, List.reverse_eq_nil_iff] at hvalues
      exact hne hvalues
    rw [numeral_pos (Nat.pos_of_ne_zero hpos), digitText, hvalues, List.map_map, List.map_congr_left (g := id),
      List.map_id, List.reverse_reverse]
    intro c hc
    exact digitChar_digitValue (hdigits c (List.mem_reverse.mp hc))

/-! ### Digits from the first one -/

theorem fixedDigits_last {k : Nat} (h : n < 10 ^ (k + 1)) :
    fixedDigits (k + 1) n = fixedDigits k (n / 10) ++ [n % 10] := by
  induction k generalizing n with
  | zero =>
    rw [Nat.zero_add, Nat.pow_one] at h
    show [n / 1] = [n % 10]
    rw [Nat.div_one, Nat.mod_eq_of_lt h]
  | succ k ih =>
    have hrest : n % 10 ^ (k + 1) / 10 = n / 10 % 10 ^ k := by
      rw [Nat.pow_succ', Nat.mod_mul_right_div_self]
    have hlast : n % 10 ^ (k + 1) % 10 = n % 10 := Nat.mod_mod_of_dvd n (Dvd.intro_left _ (Nat.pow_succ ..).symm)
    rw [fixedDigits, ih (Nat.mod_lt _ (by positivity)), hrest, hlast, fixedDigits, List.cons_append,
      Nat.div_div_eq_div_mul, ← Nat.pow_succ']

/-- As many as the number has are all of them. -/
theorem fixedDigits_length (n : Nat) : fixedDigits (Nat.digits 10 n).length n = (Nat.digits 10 n).reverse := by
  induction n using Nat.strongRecOn with
  | ind n ih =>
    rcases Nat.eq_zero_or_pos n with rfl | hpos
    · rfl
    · have hlt : n < 10 ^ (Nat.digits 10 n).length := Nat.lt_base_pow_length_digits (by decide)
      rw [Nat.digits_def' (by decide) hpos, List.length_cons] at hlt ⊢
      rw [fixedDigits_last hlt, ih (n / 10) (by omega), List.reverse_cons]

/-! ### Integers -/

/-- **Each integer has one canonical text.** -/
theorem canonical_iff {z : Int} {text : List UInt8} : Canonical z text ↔ text = decimal z := by
  have hdecimal : decimal z = (if z < 0 then [minus] else []) ++ numeral z.natAbs := by
    unfold decimal
    split <;> rfl
  constructor
  · intro h
    obtain ⟨digits, htext, hne, hdigits, hleading, hvalue⟩ := h.form
    rw [htext, hdecimal, ← hvalue, numeral_digitsValue hne hdigits hleading]
  · intro h
    exact ⟨numeral z.natAbs, h.trans hdecimal, numeral_ne_nil _, fun c hc => isDecimal_of_mem_numeral hc,
      numeral_leading, digitsValue_numeral _⟩

theorem takeWhile_numeral (n : Nat) : (numeral n).takeWhile isDecimal = numeral n :=
  List.takeWhile_eq_self_iff.mpr fun _ hc => isDecimal_of_mem_numeral hc

/-- The number is read off its text. -/
theorem leadingValue_decimal (z : Int) : leadingValue (decimal z) = z := by
  unfold leadingValue decimal
  by_cases hneg : z < 0
  · rw [if_pos hneg, if_pos List.head?_cons, List.tail_cons, takeWhile_numeral, digitsValue_numeral]
    omega
  · have hhead : (numeral z.natAbs).head? ≠ some minus := by
      intro h
      exact absurd (isDecimal_of_mem_numeral (List.mem_of_mem_head? h)) (by decide)
    rw [if_neg hneg, if_neg hhead, takeWhile_numeral, digitsValue_numeral]
    omega

theorem decimal_ne_zero {z : Int} {c : UInt8} (h : c ∈ decimal z) : c ≠ 0 := by
  have hnumeral : ∀ c ∈ numeral z.natAbs, c ≠ 0 := by
    intro c hc hzero
    have hdigit := isDecimal_of_mem_numeral hc
    rw [hzero] at hdigit
    exact absurd hdigit (by decide)
  unfold decimal at h
  split at h
  · rcases List.mem_cons.mp h with rfl | hc
    · decide
    · exact hnumeral c hc
  · exact hnumeral c h

end BasicOS.Lib

import BasicOS.Lib.Int32
import BasicOS.Lib.Loop
import BasicOS.Memory.KHeap
import BasicOS.Terminal.Screen

/-! Fast exponentiation, of `math.h`.

The loop squares `ans` and halves `exp`; where `exp` is odd one factor goes to `base` first, and
`base` is put back when `exp` is 1. What the three stand for is the same power after every turn
(`PowLoop.Holds`), in arithmetic that wraps. -/
namespace BasicOS
open Lib Program

/-- `print` for a text of the kernel: white on black. -/
def printText (str : List UInt8) (t : Terminal) : Terminal :=
  terminalRun {t with terminalFgColor := textModeColorsWhite, terminalBgColor := textModeColorsBlack} str

/-- `"Negative exponents not supported!\n"`. -/
def negativeExponents : List UInt8 := "Negative exponents not supported!\n".toUTF8.toList

structure PowLoop where
  exp : Int32
  ans : Int32
  base : Int32

def powTurn (l : PowLoop) : Program Stop Terminal (Turn PowLoop PowLoop) :=
  if l.exp > 1 then
    let l := if l.exp % 2 = 1 then {l with base := l.base * l.ans, exp := l.exp - 1} else l
    return .again {l with ans := l.ans * l.ans, exp := l.exp / 2}
  else return .leave l

/-- A turn halves `exp`, which has 32 bits. -/
def pow (num exp : Int32) : Program Stop Terminal Int32 := do
  if num = 0 then return 0
  if num = 1 then return 1
  if exp < 0 then
    modify (printText negativeExponents)
    return 1
  if exp = 0 then return 1
  let l ← loop .diverges powTurn 32 ⟨exp, num, 1⟩
  return l.ans * l.base

/-- The power that is left to compute is the one asked for, and `exp` has at most `n + 1` bits. -/
structure PowLoop.Holds (power : Int32) (n : Nat) (l : PowLoop) : Prop where
  pos : 0 < l.exp.toInt
  lt : l.exp.toInt < 2 ^ (n + 1)
  power : l.base * l.ans ^ l.exp.toInt.toNat = power

variable {power : Int32} {l : PowLoop} {n : Nat} {t : Terminal}

/-- One turn, by the parity of `exp`. -/
theorem powTurn_eq (h : 1 < l.exp.toInt) (t : Terminal) : ∃ l', powTurn l t = .ok (.again l', t) ∧
    l'.exp.toInt = l.exp.toInt / 2 ∧ l'.ans = l.ans * l.ans ∧
    l'.base = if l.exp.toInt % 2 = 1 then l.base * l.ans else l.base := by
  have hlt := l.exp.toInt_lt
  have hgt : l.exp > 1 := Int32.lt_iff_toInt_lt.mpr h
  have hhalf : ∀ e : Int32, 0 ≤ e.toInt → (e / 2).toInt = e.toInt / 2 := by
    intro e he
    rw [Int32.toInt_div_of_ne_right e 2 (by decide)]
    exact Int.tdiv_eq_ediv_of_nonneg he
  have hmod : l.exp % 2 = 1 ↔ l.exp.toInt % 2 = 1 := by
    rw [← Int32.toInt_inj, Int32.toInt_mod]
    exact (Int.tmod_eq_emod_of_nonneg (by omega)).congr_left
  unfold powTurn
  rw [if_pos hgt]
  by_cases hodd : l.exp.toInt % 2 = 1
  · have hone : (1 : Int32).toInt = 1 := by decide
    have hsub : (l.exp - 1).toInt = l.exp.toInt - 1 := toInt_sub_of_fits (by rw [hone]; omega) (by rw [hone]; omega)
    rw [if_pos (hmod.mpr hodd), if_pos hodd]
    refine ⟨_, rfl, ?_, rfl, rfl⟩
    show ((l.exp - 1) / 2).toInt = _
    rw [hhalf _ (by omega), hsub]
    omega
  · rw [if_neg (mt hmod.mp hodd), if_neg hodd]
    exact ⟨_, rfl, hhalf _ (by omega), rfl, rfl⟩

/-- A turn leaves the loop with the power, or goes on with fewer bits. -/
theorem powTurn_holds (h : l.Holds power n) : wp (powTurn l)
    (Turn.To (fun l' t' => l'.ans * l'.base = power ∧ t' = t) fun l' t' => ∃ k, k < n ∧ l'.Holds power k ∧ t' = t)
    (fun _ => False) t := by
  by_cases hmore : 1 < l.exp.toInt
  · obtain ⟨l', hturn, hexp, hans, hbase⟩ := powTurn_eq hmore t
    cases n with
    | zero =>
      have hlt : l.exp.toInt < 2 := h.lt
      omega
    | succ n =>
      refine (wp_ok hturn).mpr ⟨n, Nat.lt_succ_self n, ⟨?_, ?_, ?_⟩, rfl⟩
      · rw [hexp]
        omega
      · have hlt := h.lt
        rw [Int.pow_succ] at hlt
        rw [hexp]
        omega
      · have hsplit : l.exp.toInt.toNat = 2 * l'.exp.toInt.toNat + (l.exp.toInt % 2).toNat := by
          rw [hexp]
          omega
        rw [hans, hbase, ← h.power, hsplit]
        by_cases hodd : l.exp.toInt % 2 = 1
        · rw [if_pos hodd, hodd, Int.toNat_one, Int32.pow_succ, pow_twice, Int32.mul_assoc, Int32.mul_comm l.ans]
        · have heven : l.exp.toInt % 2 = 0 := by omega
          rw [if_neg hodd, heven, Int.toNat_zero, Nat.add_zero, pow_twice]
  · have hone : l.exp.toInt = 1 := by
      have hpos := h.pos
      omega
    have hpower := h.power
    rw [hone, Int.toNat_one, Int32.pow_succ, Int32.pow_zero, Int32.one_mul] at hpower
    have hnot : ¬ l.exp > 1 := fun hgt => hmore (Int32.lt_iff_toInt_lt.mp hgt)
    unfold powTurn
    rw [if_neg hnot]
    exact ⟨(Int32.mul_comm ..).trans hpower, rfl⟩

theorem powLoop_wp (h : l.Holds power 30) : wp (loop .diverges powTurn 32 l)
    (fun l' t' => l'.ans * l'.base = power ∧ t' = t) (fun _ => False) t := by
  apply loop_wp (I := fun n l t' => l.Holds power n ∧ t' = t) _ ⟨h, rfl⟩ (by decide)
  intro n l s hI
  rw [hI.2]
  exact powTurn_holds hI.1

/-- In arithmetic that wraps the result is the power. -/
theorem pow_eq {num exp : Int32} (hexp : 0 ≤ exp) (hne : ¬ (num = 0 ∧ exp = 0)) (t : Terminal) :
    pow num exp t = .ok (num ^ exp.toInt.toNat, t) := by
  have hge : 0 ≤ exp.toInt := Int32.le_iff_toInt_le.mp hexp
  have hpos : exp ≠ 0 → 0 < exp.toInt := fun h => by
    have hzero : exp.toInt ≠ 0 := fun h0 => h (Int32.toInt_inj.mp h0)
    omega
  have hnot : ¬ exp < 0 := fun h => by
    have hlt : exp.toInt < 0 := Int32.lt_iff_toInt_lt.mp h
    omega
  unfold pow
  by_cases hzero : num = 0
  · have hnat : exp.toInt.toNat = exp.toInt.toNat - 1 + 1 := by
      have h := hpos fun h => hne ⟨hzero, h⟩
      omega
    rw [if_pos hzero, hzero, hnat, Int32.pow_succ, Int32.mul_zero]
    rfl
  rw [if_neg hzero]
  by_cases hone : num = 1
  · rw [if_pos hone, hone, one_pow_int32]
    rfl
  rw [if_neg hone, if_neg hnot]
  by_cases hexp0 : exp = 0
  · rw [if_pos hexp0, hexp0]
    rfl
  rw [if_neg hexp0]
  have hstart : PowLoop.Holds (num ^ exp.toInt.toNat) 30 ⟨exp, num, 1⟩ :=
    ⟨hpos hexp0, exp.toInt_lt, Int32.one_mul _⟩
  obtain ⟨l, t', hloop, hans, rfl⟩ := (powLoop_wp (t := t) hstart).returns
  rw [bind_apply, hloop, ← hans]
  rfl

/-- **`pow` is the power.** For every base and every exponent that is not negative, other than
`0 ^ 0`, the loop ends and the result is the power modulo `2 ^ 32`; where the power fits the
`long int` it is the power itself. -/
theorem pow_exact (num exp : Int32) (hexp : 0 ≤ exp) (hne : ¬ (num = 0 ∧ exp = 0)) (t : Terminal) :
    ∃ result, pow num exp t = .ok (result, t) ∧
      result.toInt % 2 ^ 32 = num.toInt ^ exp.toInt.toNat % 2 ^ 32 ∧
      (-2 ^ 31 ≤ num.toInt ^ exp.toInt.toNat → num.toInt ^ exp.toInt.toNat < 2 ^ 31 →
        result.toInt = num.toInt ^ exp.toInt.toNat) := by
  refine ⟨_, pow_eq hexp hne t, ?_, toInt_pow_of_fits⟩
  rw [← Int32.ofInt_toInt num, ← ofInt_pow, Int32.ofInt_toInt, Int32.toInt_ofInt]
  exact Int.bmod_emod

/-- `7 ^ 11` still fits. -/
theorem pow_seven : ∃ result, pow 7 11 ⟨0, 0, 15, 0, []⟩ = .ok (result, ⟨0, 0, 15, 0, []⟩) ∧
    result.toInt % 2 ^ 32 = (7 : Int32).toInt ^ (11 : Int32).toInt.toNat % 2 ^ 32 ∧
    (-2 ^ 31 ≤ (7 : Int32).toInt ^ (11 : Int32).toInt.toNat →
      (7 : Int32).toInt ^ (11 : Int32).toInt.toNat < 2 ^ 31 →
      result.toInt = (7 : Int32).toInt ^ (11 : Int32).toInt.toNat) :=
  pow_exact 7 11 (by decide) (by decide) ⟨0, 0, 15, 0, []⟩

end BasicOS

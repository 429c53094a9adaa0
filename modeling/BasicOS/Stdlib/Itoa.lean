import BasicOS.Lib.Decimal
import BasicOS.Lib.Int32
import BasicOS.Lib.Loop

/-! `itoa` of the user library.

The digits are put into a static buffer of 12 bytes from its end, out of remainders that are not
positive: a number is made negative first, so that the smallest one has no case of its own.
What has not been converted and what stands in the buffer are together always the digits of the
number (`ItoaLoop.Holds`), and there is room for those that are missing and a sign. -/
namespace BasicOS
open Lib Program

/-- What C leaves undefined, or never ends. -/
inductive Undefined where
  | overflow
  | outside
  | noArgument
  | diverges
deriving DecidableEq, Repr

/-- The result of an operation on `int`. -/
def signed {S : Type} (z : Int) : Program Undefined S Int :=
  if -2 ^ 31 ≤ z ∧ z < 2 ^ 31 then return z else stop .overflow

/-- `static char text[12]`. -/
abbrev ItoaText := Vector UInt8 12

def setText (loc : Int) (c : UInt8) : Program Undefined ItoaText Unit := fun text =>
  if h : 0 ≤ loc ∧ loc < 12 then .ok ((), text.set loc.toNat c (by omega)) else .error .outside

structure ItoaLoop where
  num : Int
  loc : Int

def itoaTurn (l : ItoaLoop) : Program Undefined ItoaText (Turn ItoaLoop ItoaLoop) := do
  if l.num = 0 then return .leave l
  let digit ← signed (48 - l.num.tmod 10)
  setText (l.loc - 1) (UInt8.ofInt digit)
  return .again ⟨← signed (l.num.tdiv 10), l.loc - 1⟩

/-- The result is the index of the first character in the buffer. No `int` has more than ten
digits. -/
def itoa (num : Int32) : Program Undefined ItoaText Int := do
  setText 11 0
  let neg := num.toInt < 0
  let start ← (if neg then pure num.toInt else signed (-num.toInt))
  let l ← loop .diverges itoaTurn 11 ⟨start, 11⟩
  let loc ← (if l.loc = 11 then do
      setText (l.loc - 1) 48
      pure (l.loc - 1)
    else pure l.loc)
  if neg then
    setText (loc - 1) minus
    return loc - 1
  return loc

/-- The end of the buffer, from an index on. -/
def ItoaText.from (text : ItoaText) (loc : Int) : List UInt8 := text.toList.drop loc.toNat

/-- `m` is still to be converted, into `n` digits; the others, of `total` in all, are in the
buffer. -/
structure ItoaLoop.Holds (total n : Nat) (l : ItoaLoop) (text : ItoaText) : Prop where
  rest : ∃ m : Nat, l.num = -m ∧ m ≤ 2 ^ 31 ∧ (Nat.digits 10 m).length = n ∧
    digitText m ++ text.from l.loc = digitText total ++ [0]
  room : n + 1 ≤ l.loc
  inside : l.loc ≤ 11

variable {text : ItoaText} {l : ItoaLoop} {total n : Nat}

theorem signed_eq {S : Type} {z : Int} (hge : -2 ^ 31 ≤ z) (hlt : z < 2 ^ 31) :
    (signed z : Program Undefined S Int) = pure z := if_pos ⟨hge, hlt⟩

theorem length_from (text : ItoaText) (loc : Int) : (text.from loc).length = 12 - loc.toNat := by
  unfold ItoaText.from
  rw [List.length_drop, Vector.length_toList]

/-- A character goes in front of what is in the buffer. -/
theorem setText_spec {loc : Int} (hpos : 0 < loc) (hle : loc ≤ 12) (c : UInt8) (text : ItoaText) :
    ∃ text', setText (loc - 1) c text = .ok ((), text') ∧ text'.from (loc - 1) = c :: text.from loc := by
  have hlen : text.toList.length = 12 := Vector.length_toList
  refine ⟨text.set (loc - 1).toNat c (by omega), ?_, ?_⟩
  · unfold setText
    rw [dif_pos (by omega)]
  · unfold ItoaText.from
    rw [Vector.toList_set, show loc.toNat = (loc - 1).toNat + 1 by omega, List.drop_eq_getElem_cons
      (by rw [List.length_set]; omega), List.getElem_set_self, List.drop_set_of_lt (Nat.lt_succ_self _)]

/-- One turn puts the last digit of what is left. -/
theorem itoaTurn_eq {m : Nat} (hnum : l.num = -m) (hpos : 0 < m) (hm : m ≤ 2 ^ 31) (hloc : 0 < l.loc)
    (hinside : l.loc ≤ 11) : ∃ text', itoaTurn l text = .ok (.again ⟨-(m / 10 : Nat), l.loc - 1⟩, text') ∧
      text'.from (l.loc - 1) = digitChar (m % 10) :: text.from l.loc := by
  have hrem : (48 : Int) - l.num.tmod 10 = (48 + m % 10 : Nat) := by
    rw [hnum, Int.neg_tmod, Int.tmod_eq_emod_of_nonneg (by omega)]
    omega
  have hquot : l.num.tdiv 10 = -(m / 10 : Nat) := by
    rw [hnum, Int.neg_tdiv, Int.tdiv_eq_ediv_of_nonneg (by omega)]
    omega
  have hne : l.num ≠ 0 := by omega
  obtain ⟨text', hset, hfrom⟩ := setText_spec hloc (by omega) (digitChar (m % 10)) text
  refine ⟨text', ?_, hfrom⟩
  unfold itoaTurn
  rw [if_neg hne, hrem, hquot, signed_eq (by omega) (by omega), signed_eq (by omega) (by omega), pure_bind,
    ofInt_digit (by omega), bind_apply, hset]
  rfl

theorem itoaTurn_holds (h : l.Holds total n text) : wp (itoaTurn l)
    (Turn.To (fun l' text' => l'.Holds total 0 text') fun l' text' => ∃ k, k < n ∧ l'.Holds total k text')
    (fun _ => False) text := by
  obtain ⟨m, hnum, hm, hdigits, htext⟩ := h.rest
  have hroom := h.room
  have hinside := h.inside
  by_cases hzero : m = 0
  · have hn : n = 0 := by
      rw [← hdigits, hzero, Nat.digits_zero]
      rfl
    unfold itoaTurn
    rw [if_pos (by rw [hnum, hzero]; rfl)]
    exact hn ▸ h
  · have hpos : 0 < m := Nat.pos_of_ne_zero hzero
    obtain ⟨text', hrun, hfrom⟩ := @itoaTurn_eq text l m hnum hpos hm (by omega) hinside
    rw [Nat.digits_def' (by decide) hpos, List.length_cons] at hdigits
    rw [digitText_pos hpos, List.append_assoc] at htext
    refine (wp_ok hrun).mpr ⟨n - 1, by omega, ⟨m / 10, rfl, by omega, by omega, ?_⟩, ?_, ?_⟩
    · show digitText (m / 10) ++ text'.from (l.loc - 1) = _
      rw [hfrom]
      exact htext
    · show ((n - 1 : Nat) : Int) + 1 ≤ l.loc - 1
      omega
    · show l.loc - 1 ≤ 11
      omega

/-- The loop leaves every digit in the buffer. -/
theorem itoaLoop_wp (h : l.Holds total n text) (hn : n < 11) : wp (loop .diverges itoaTurn 11 l)
    (fun l' text' => l'.Holds total 0 text') (fun _ => False) text :=
  loop_wp (I := fun n l text => l.Holds total n text) (fun _ _ _ => itoaTurn_holds) h hn

theorem ItoaLoop.Holds.written (h : l.Holds total 0 text) : text.from l.loc = digitText total ++ [0] := by
  obtain ⟨m, _, _, hdigits, htext⟩ := h.rest
  rw [List.length_eq_zero_iff] at hdigits
  unfold digitText at htext
  rw [hdigits] at htext
  exact htext

/-- A number is made negative, or is. -/
theorem signed_start (num : Int32) :
    (if num.toInt < 0 then pure num.toInt else signed (-num.toInt) : Program Undefined ItoaText Int) =
      pure (-num.toInt.natAbs : Int) := by
  have hlt := num.toInt_lt
  split
  · congr 1
    omega
  · rw [signed_eq (by omega) (by omega)]
    congr 1
    omega

/-- The buffer before the loop has the zero of the string. -/
theorem holds_start {total : Nat} (htotal : total ≤ 2 ^ 31) (hzero : text.from 11 = [0]) :
    ∃ n, n < 11 ∧ ItoaLoop.Holds total n ⟨-total, 11⟩ text := by
  have hdigits : (Nat.digits 10 total).length ≤ 10 := by
    rw [Nat.digits_length_le_iff (by decide)]
    omega
  refine ⟨(Nat.digits 10 total).length, by omega, ⟨total, rfl, htotal, rfl, ?_⟩, ?_, le_rfl⟩
  · show digitText total ++ text.from 11 = _
    rw [hzero]
  · show ((Nat.digits 10 total).length : Int) + 1 ≤ 11
    omega

/-- Zero has a digit as well. -/
theorem zeroDigit_spec (h : l.Holds total 0 text) : ∃ loc text',
    (if l.loc = 11 then do
      setText (l.loc - 1) 48
      pure (l.loc - 1)
    else pure l.loc : Program Undefined ItoaText Int) text = .ok (loc, text') ∧
      0 < loc ∧ loc ≤ 11 ∧ text'.from loc = numeral total ++ [0] := by
  have hroom := h.room
  have hinside := h.inside
  have hwritten := h.written
  have hlen := congrArg List.length hwritten
  rw [length_from, List.length_append, List.length_singleton] at hlen
  split
  · rename_i hloc
    have hdigits : digitText total = [] := List.eq_nil_of_length_eq_zero (by omega)
    have htotal : total = 0 := by
      by_contra hne
      rw [digitText_pos (Nat.pos_of_ne_zero hne)] at hdigits
      exact List.append_ne_nil_of_right_ne_nil _ (List.cons_ne_nil _ _) hdigits
    obtain ⟨text', hset, hfrom⟩ := setText_spec (show 0 < l.loc by omega) (by omega) 48 text
    refine ⟨l.loc - 1, text', ?_, by omega, by omega, ?_⟩
    · rw [bind_apply, hset]
      rfl
    · rw [hfrom, hwritten, hdigits, htotal]
      rfl
  · rename_i hloc
    have htotal : 0 < total := by
      apply Nat.pos_of_ne_zero
      intro hzero
      rw [hzero] at hlen
      simp [digitText] at hlen
      omega
    refine ⟨l.loc, text, rfl, by omega, hinside, ?_⟩
    rw [hwritten, numeral_pos htotal]

/-- What stands in the buffer from the index returned, with its zero. -/
theorem itoa_spec (num : Int32) (text : ItoaText) : ∃ loc text', itoa num text = .ok (loc, text') ∧
    0 ≤ loc ∧ loc < 12 ∧ text'.from loc = decimal num.toInt ++ [0] := by
  have hlt := num.toInt_lt
  have hge := num.le_toInt
  obtain ⟨text₀, hset₀, hfrom₀⟩ := setText_spec (show (0 : Int) < 12 by decide) (by decide) 0 text
  have hend : text.from 12 = [] := List.eq_nil_of_length_eq_zero (length_from text 12)
  rw [hend] at hfrom₀
  obtain ⟨n, hn, hstart⟩ := holds_start (show num.toInt.natAbs ≤ 2 ^ 31 by omega) hfrom₀
  obtain ⟨l, text₁, hloop, hholds⟩ := (itoaLoop_wp hstart hn).returns
  obtain ⟨loc, text₂, hdigit, hpos, hle, hfrom⟩ := zeroDigit_spec hholds
  obtain ⟨text₃, hset, hfrom'⟩ := setText_spec hpos (by omega) minus text₂
  have hrun : itoa num text = (if num.toInt < 0 then do
      setText (loc - 1) minus
      return loc - 1
    else return loc : Program Undefined ItoaText Int) text₂ := by
    unfold itoa
    rw [bind_apply, show setText 11 0 text = _ from hset₀]
    simp only
    rw [signed_start, pure_bind, bind_apply, hloop]
    simp only
    rw [bind_apply, hdigit]
  unfold decimal
  rw [hrun]
  by_cases hneg : num.toInt < 0
  · rw [if_pos hneg, if_pos hneg]
    refine ⟨loc - 1, text₃, ?_, by omega, by omega, ?_⟩
    · rw [bind_apply, hset]
      rfl
    · rw [hfrom', hfrom]
      rfl
  · rw [if_neg hneg, if_neg hneg]
    exact ⟨loc, text₂, rfl, by omega, by omega, hfrom⟩

/-- **`itoa` is exact and stays in its buffer.** For every `int`, whatever the buffer held, no
operation overflows, no index is outside the buffer, and what is returned is the canonical text of
the number with its zero. -/
theorem itoa_exact (num : Int32) (text : ItoaText) : ∃ loc chars text', itoa num text = .ok (loc, text') ∧
    (0 ≤ loc ∧ loc < 12) ∧ Canonical num.toInt chars ∧ text'.from loc = chars ++ [0] := by
  obtain ⟨loc, text', hrun, hge, hlt, hfrom⟩ := itoa_spec num text
  exact ⟨loc, decimal num.toInt, text', hrun, ⟨hge, hlt⟩, canonical_iff.mpr rfl, hfrom⟩

/-- The smallest number fills the buffer. -/
example : (itoa Int32.minValue (Vector.replicate 12 0)).toOption.map (fun r => (r.1, r.2.from r.1)) =
    some (0, "-2147483648".toUTF8.toList ++ [0]) := by decide +kernel

end BasicOS

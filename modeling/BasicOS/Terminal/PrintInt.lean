import BasicOS.Lib.Decimal
import BasicOS.Math.Pow
import BasicOS.Terminal.Erase

/-! `printint` of `kernel.c`.

The digits are counted first and then divided off from the top, by powers of ten. All of it works
for a negative number too, digit by digit with its sign (`printintTurns_eq`), but a digit with a minus
is no digit: `num *= -1` leaves the smallest number as it is, and that number alone is not
printed as it should be (`printint_exact_iff`). -/
namespace BasicOS
open Lib Program

structure CountLoop where
  num : Int32
  numLen : Nat

def countTurn (l : CountLoop) : Program Stop Terminal (Turn CountLoop Nat) :=
  if l.num = 0 then return .leave l.numLen else return .again ⟨l.num / 10, l.numLen + 1⟩

structure PrintintLoop where
  i : Nat
  bkp : Int32

def printintTurn (numLen : Nat) (l : PrintintLoop) : Program Stop Terminal (Turn PrintintLoop Unit) := do
  if l.i < numLen then
    let divres ← pow 10 (Int32.ofNat (numLen - l.i - 1))
    if divres = 0 then stop .fault
    modify (terminalPuts (UInt8.ofInt (48 + l.bkp / divres).toInt))
    return .again ⟨l.i + 1, l.bkp % divres⟩
  return .leave ()

/-- No `int` has more than ten digits. -/
def printint (num : Int32) : Program Stop Terminal Unit := do
  let num ← (if num < 0 then do
      modify (terminalPuts minus)
      pure (num * -1)
    else pure num)
  if num = 0 then
    modify (terminalPuts 48)
    return ()
  let numLen ← loop .diverges countTurn 11 ⟨num, 0⟩
  loop .diverges (printintTurn numLen) 11 ⟨0, num⟩

/-- A digit is printed with the sign of the number. -/
def signedDigit (sign : Int) (d : Nat) : UInt8 := UInt8.ofInt (48 + sign * d)

instance (ch : UInt8) : Decidable (IsGlyph ch) := inferInstanceAs (Decidable (_ ∧ _ ∧ _ ∧ _))

variable {t : Terminal} {num bkp : Int32} {sign : Int} {r n : Nat}

/-! ### Counting -/

/-- The length is that of the number of digits left and those counted. -/
theorem countLoop_eq (hn : (Nat.digits 10 num.toInt.natAbs).length = n) (h : n < 11) (t : Terminal) :
    loop .diverges countTurn 11 ⟨num, 0⟩ t = .ok (n, t) := by
  have hturns : wp (loop .diverges countTurn 11 ⟨num, 0⟩) (fun numLen t' => numLen = n ∧ t' = t) (fun _ => False) t := by
    apply loop_wp (I := fun k l t' => (Nat.digits 10 l.num.toInt.natAbs).length = k ∧ k + l.numLen = n ∧ t' = t) _
      ⟨hn, Nat.add_zero n, rfl⟩ h
    intro k l s hI
    obtain ⟨hlen, hsum, hs⟩ := hI
    unfold countTurn
    split
    · rename_i hzero
      rw [hzero] at hlen
      have hk : k = 0 := hlen.symm.trans (by simp)
      exact ⟨by omega, hs⟩
    · rename_i hnonzero
      have hpos : 0 < l.num.toInt.natAbs := by
        have hne : l.num.toInt ≠ 0 := fun h0 => hnonzero (Int32.toInt_inj.mp h0)
        omega
      rw [Nat.digits_def' (by decide) hpos, List.length_cons] at hlen
      have hquot : (l.num / 10).toInt.natAbs = l.num.toInt.natAbs / 10 := by
        rw [Int32.toInt_div_of_ne_right _ _ (by decide), Int.natAbs_tdiv]
        rfl
      refine ⟨k - 1, by omega, ?_, ?_, hs⟩
      · show (Nat.digits 10 (l.num / 10).toInt.natAbs).length = k - 1
        rw [hquot]
        omega
      · show k - 1 + (l.numLen + 1) = n
        omega
  obtain ⟨numLen, t', hloop, rfl, rfl⟩ := hturns.returns
  exact hloop

/-! ### Printing -/

theorem pow_ten {k : Nat} (hk : k ≤ 9) (t : Terminal) :
    ∃ divres, pow 10 (Int32.ofNat k) t = .ok (divres, t) ∧ divres.toInt = (10 ^ k : Nat) := by
  have hexp : (Int32.ofNat k).toInt = k := Int32.toInt_ofNat_of_lt (by omega)
  have hten : (10 : Int32).toInt = 10 := by decide
  have hle : 10 ^ k ≤ 10 ^ 9 := Nat.pow_le_pow_right (by decide) hk
  refine ⟨_, pow_eq ?_ (fun h => absurd h.1 (by decide)) t, ?_⟩
  · rw [Int32.le_iff_toInt_le, hexp]
    exact Int.natCast_nonneg k
  · rw [hexp, Int.toNat_natCast]
    have hpow : ((10 ^ k : Nat) : Int) = (10 : Int32).toInt ^ k := by
      rw [hten]
      exact Nat.cast_pow 10 k
    rw [hpow]
    apply toInt_pow_of_fits
    · rw [← hpow]
      exact Int.le_trans (by decide) (Int.natCast_nonneg _)
    · rw [← hpow]
      omega

theorem toInt_digit {a : Int32} {d : Nat} (hsign : sign = 1 ∨ sign = -1) (ha : a.toInt = sign * d) (hd : d < 10) :
    (48 + a).toInt = 48 + sign * d := by
  have h48 : (48 : Int32).toInt = 48 := by decide
  rw [toInt_add_of_fits, h48, ha]
  · rw [h48, ha]
    rcases hsign with rfl | rfl <;> omega
  · rw [h48, ha]
    rcases hsign with rfl | rfl <;> omega

/-- One turn prints the first of the digits left. -/
theorem printintTurn_eq (hsign : sign = 1 ∨ sign = -1) {numLen : Nat} {l : PrintintLoop} (hi : l.i + (n + 1) = numLen)
    (hn : n ≤ 9) (hbkp : l.bkp.toInt = sign * r) (hr : r < 10 ^ (n + 1)) (t : Terminal) :
    ∃ bkp', printintTurn numLen l t = .ok (.again ⟨l.i + 1, bkp'⟩, terminalPuts (signedDigit sign (r / 10 ^ n)) t) ∧
      bkp'.toInt = sign * (r % 10 ^ n : Nat) := by
  obtain ⟨divres, hpow, hdivres⟩ := pow_ten hn t
  have hpos : 0 < 10 ^ n := by positivity
  have hdigit : r / 10 ^ n < 10 := by
    rw [Nat.div_lt_iff_lt_mul hpos, ← Nat.pow_succ']
    exact hr
  have hquot : (l.bkp / divres).toInt = sign * (r / 10 ^ n : Nat) := by
    rw [Int32.toInt_div_of_ne_right, hbkp, hdivres]
    · rcases hsign with rfl | rfl
      · rw [Int.one_mul, Int.one_mul]
        rfl
      · rw [Int.neg_one_mul, Int.neg_one_mul, Int.neg_tdiv]
        rfl
    · intro h
      rw [h] at hdivres
      exact absurd hdivres (by show ((-1 : Int) ≠ _); omega)
  have hrem : (l.bkp % divres).toInt = sign * (r % 10 ^ n : Nat) := by
    rw [Int32.toInt_mod, hbkp, hdivres]
    rcases hsign with rfl | rfl
    · rw [Int.one_mul, Int.one_mul]
      rfl
    · rw [Int.neg_one_mul, Int.neg_one_mul, Int.neg_tmod]
      rfl
  have hne : divres ≠ 0 := by
    intro h
    rw [h] at hdivres
    exact absurd hdivres (by show ((0 : Int) ≠ _); omega)
  refine ⟨l.bkp % divres, ?_, hrem⟩
  unfold printintTurn
  rw [if_pos (by omega), show numLen - l.i - 1 = n by omega, bind_apply, hpow]
  simp only
  rw [if_neg hne, toInt_digit hsign hquot hdigit]
  rfl

/-- The turns print the digits from the first. -/
theorem printintTurns_eq (hsign : sign = 1 ∨ sign = -1) {numLen : Nat} {l : PrintintLoop} (hi : l.i + n = numLen)
    (hn : n ≤ 10) (hbkp : l.bkp.toInt = sign * r) (hr : r < 10 ^ n) {turns : Nat} (hturns : n < turns) (t : Terminal) :
    loop .diverges (printintTurn numLen) turns l t =
      .ok ((), terminalRun t ((fixedDigits n r).map (signedDigit sign))) := by
  induction n generalizing l r turns t with
  | zero =>
    obtain ⟨turns, rfl⟩ := Nat.exists_eq_add_one_of_ne_zero (Nat.ne_of_gt hturns)
    refine loop_leave ?_ turns
    unfold printintTurn
    rw [if_neg (by omega)]
    rfl
  | succ n ih =>
    obtain ⟨turns, rfl⟩ := Nat.exists_eq_add_one_of_ne_zero (Nat.ne_of_gt (Nat.zero_lt_of_lt hturns))
    obtain ⟨bkp', hturn, hbkp'⟩ := printintTurn_eq hsign hi (by omega) hbkp hr t
    have hrest := Nat.mod_lt r (show 0 < 10 ^ n by positivity)
    rw [loop_again hturn, ih (show l.i + 1 + n = numLen by omega) (by omega) hbkp' hrest (by omega)]
    rfl

/-- All of a number, with the sign it has then. -/
theorem digits_printed (hsign : sign = 1 ∨ sign = -1) {m : Nat} (hnum : num.toInt = sign * m) (hm : m ≤ 2 ^ 31)
    (t : Terminal) : (loop .diverges countTurn 11 ⟨num, 0⟩ >>= fun numLen =>
      loop .diverges (printintTurn numLen) 11 ⟨0, num⟩) t =
        .ok ((), terminalRun t ((Nat.digits 10 m).reverse.map (signedDigit sign))) := by
  have habs : num.toInt.natAbs = m := by
    rw [hnum]
    rcases hsign with rfl | rfl <;> omega
  have hlen : (Nat.digits 10 m).length ≤ 10 := by
    rw [Nat.digits_length_le_iff (by decide)]
    omega
  rw [bind_apply, countLoop_eq (by rw [habs]) (Nat.lt_succ_of_le hlen)]
  simp only
  rw [printintTurns_eq hsign (Nat.zero_add _) hlen hnum (Nat.lt_base_pow_length_digits (by decide))
    (Nat.lt_succ_of_le hlen), fixedDigits_length]

/-- What is printed: the smallest number has a minus in each digit. -/
def printedText (num : Int32) : List UInt8 :=
  if num = Int32.minValue then minus :: (Nat.digits 10 (2 ^ 31)).reverse.map (signedDigit (-1)) else decimal num.toInt

theorem map_signedDigit {m : Nat} (h : 0 < m) : (Nat.digits 10 m).reverse.map (signedDigit 1) = numeral m := by
  rw [numeral_pos h, digitText, List.map_reverse]
  congr 1
  apply List.map_congr_left
  intro d hd
  unfold signedDigit
  rw [Int.one_mul]
  exact ofInt_digit (Nat.digits_lt_base (by decide) hd)

/-- What `printint` does to the screen, for every number. -/
theorem printint_eq (num : Int32) (t : Terminal) : printint num t = .ok ((), terminalRun t (printedText num)) := by
  have hlt := num.toInt_lt
  have hge := num.le_toInt
  have hpositive : ∀ {a : Int32}, 0 < a.toInt.natAbs → a ≠ 0 := by
    intro a ha hzero
    rw [hzero] at ha
    exact absurd ha (by decide)
  unfold printint printedText
  by_cases hneg : num.toInt < 0
  · have hnegate : num * -1 = -num := by rw [Int32.mul_neg, Int32.mul_one]
    rw [if_pos (Int32.lt_iff_toInt_lt.mpr hneg), hnegate, bind_assoc, bind_apply, modify_apply]
    simp only
    rw [pure_bind]
    by_cases hmin : num = Int32.minValue
    · have hminus : (-num).toInt = -1 * (2 ^ 31 : Nat) := by
        rw [hmin, show -Int32.minValue = Int32.minValue by decide, Int32.toInt_minValue]
        omega
      rw [if_pos hmin, if_neg (hpositive (by omega)), digits_printed (.inr rfl) hminus le_rfl, terminalRun_cons]
    · have habs : (-num).toInt = 1 * (num.toInt.natAbs : Nat) := by
        rw [toInt_neg_of_fits (fun h => hmin (Int32.toInt_inj.mp h))]
        omega
      rw [if_neg hmin, if_neg (hpositive (by omega)), digits_printed (.inl rfl) habs (by omega),
        map_signedDigit (by omega), decimal, if_pos hneg, terminalRun_cons]
  · rw [if_neg (fun h => hneg (Int32.lt_iff_toInt_lt.mp h)), pure_bind,
      if_neg (fun h : num = Int32.minValue => hneg (by rw [h]; decide)), decimal, if_neg hneg]
    by_cases hzero : num = 0
    · rw [if_pos hzero, hzero]
      rfl
    · have hne : num.toInt ≠ 0 := fun h => hzero (Int32.toInt_inj.mp h)
      rw [if_neg hzero, digits_printed (.inl rfl) (show num.toInt = 1 * (num.toInt.natAbs : Nat) by omega) (by omega),
        map_signedDigit (by omega)]

/-! ### What a screen shows of a text -/

/-- Widening a character with its sign keeps its byte. -/
theorem toUInt8_signExtended (ch : UInt8) : ch.toInt8.toInt16.toUInt16.toUInt8 = ch := by
  apply UInt8.toBitVec_inj.mp
  show (ch.toBitVec.signExtend 16).setWidth 8 = ch.toBitVec
  apply BitVec.eq_of_getLsbD_eq
  intro i hi
  rw [BitVec.getLsbD_setWidth, BitVec.getLsbD_signExtend]
  simp [hi, show i < 16 by omega]

theorem toUInt8_shiftLeft (colors : UInt16) : (colors <<< 8).toUInt8 = 0 := by
  apply UInt8.toNat_inj.mp
  rw [UInt16.toNat_toUInt8, UInt16.toNat_shiftLeft, Nat.shiftLeft_eq]
  show colors.toNat * 2 ^ 8 % 2 ^ 16 % 2 ^ 8 = 0
  omega

/-- The lower byte of a glyph is its character. -/
theorem vgaMakeChar_toUInt8 (ch color bgColor : UInt8) : (vgaMakeChar ch color bgColor).toUInt8 = ch := by
  unfold vgaMakeChar
  rw [UInt16.toUInt8_or, toUInt8_signExtended, toUInt8_shiftLeft, UInt8.zero_or]

/-- A word's glyphs are stored one after the other, in the colours of the screen. -/
theorem terminalRun_glyphs {chars : List UInt8} (hchars : ∀ ch ∈ chars, IsGlyph ch) (t : Terminal) :
    (terminalRun t chars).video.map (fun store => store.2.toUInt8) =
      chars.reverse ++ t.video.map (fun store => store.2.toUInt8) := by
  induction chars generalizing t with
  | nil => rfl
  | cons ch chars ih =>
    obtain ⟨h10, h8, h13, h9⟩ := hchars ch (List.mem_cons_self ..)
    have hput : ∃ cell, (terminalPuts ch t).video =
        (cell, vgaMakeChar ch t.wrapped.terminalFgColor t.wrapped.terminalBgColor) :: t.wrapped.video := by
      unfold terminalPuts
      simp only
      rw [if_neg h10, if_neg h8, if_neg h13, if_neg h9]
      exact ⟨_, rfl⟩
    obtain ⟨cell, hvideo⟩ := hput
    rw [terminalRun_cons, ih (fun c hc => hchars c (List.mem_cons_of_mem ch hc)), hvideo, List.map_cons,
      vgaMakeChar_toUInt8, wrapped_video, List.reverse_cons, List.append_assoc]
    rfl

/-- Different texts look different. -/
theorem terminalRun_injective {chars chars' : List UInt8} (h : ∀ ch ∈ chars, IsGlyph ch)
    (h' : ∀ ch ∈ chars', IsGlyph ch) (heq : terminalRun t chars = terminalRun t chars') : chars = chars' := by
  have hvideo := congrArg (fun s : Terminal => s.video.map fun store => store.2.toUInt8) heq
  simp only [terminalRun_glyphs h, terminalRun_glyphs h', List.append_left_inj, List.reverse_inj] at hvideo
  exact hvideo

theorem isGlyph_decimal {z : Int} {c : UInt8} (h : c ∈ decimal z) : IsGlyph c := by
  have hnumeral : ∀ c ∈ numeral z.natAbs, IsGlyph c := by
    intro c hc
    have hdigit := isDecimal_iff.mp (isDecimal_of_mem_numeral hc)
    refine ⟨?_, ?_, ?_, ?_⟩ <;> rintro rfl <;> exact absurd hdigit.1 (by decide)
  unfold decimal at h
  split at h
  · rcases List.mem_cons.mp h with rfl | hc
    · decide
    · exact hnumeral c hc
  · exact hnumeral c h

/-! ### What `printint` prints -/

/-- No digit comes out as one: `"-./,),(-*,("`. -/
theorem printedText_min : printedText Int32.minValue = [45, 46, 47, 44, 41, 44, 40, 45, 42, 44, 40] := by
  have hdigits : Nat.digits 10 (2 ^ 31) = [8, 4, 6, 3, 8, 4, 7, 4, 1, 2] := by norm_num
  unfold printedText
  rw [if_pos rfl, hdigits]
  decide

theorem printint_min (t : Terminal) : ¬ ∃ chars, Canonical Int32.minValue.toInt chars ∧
    printint Int32.minValue t = .ok ((), terminalRun t chars) := by
  intro h
  obtain ⟨chars, hcanonical, hrun⟩ := h
  have hprinted := printint_eq Int32.minValue t
  rw [hrun, printedText_min] at hprinted
  have hscreens := congrArg Prod.snd (Except.ok.inj hprinted)
  have hglyphs : ∀ ch ∈ [45, 46, 47, 44, 41, 44, 40, 45, 42, 44, (40 : UInt8)], IsGlyph ch := by
    simp [IsGlyph]
  obtain rfl := canonical_iff.mp hcanonical
  have htext := terminalRun_injective (fun _ hc => isGlyph_decimal hc) hglyphs hscreens
  rw [decimal, if_pos (by decide)] at htext
  have hdigit : (46 : UInt8) ∈ numeral Int32.minValue.toInt.natAbs := by
    rw [(List.cons.inj htext).2]
    exact List.mem_cons_self ..
  exact absurd (isDecimal_of_mem_numeral hdigit) (by decide)

/-- **`printint` prints every number but the smallest.** It always ends; what it puts on any screen is
the canonical text of the number exactly where the number is not `-2147483648`. -/
theorem printint_exact_iff (num : Int32) (t : Terminal) :
    (∃ chars, Canonical num.toInt chars ∧ printint num t = .ok ((), terminalRun t chars)) ↔ num ≠ Int32.minValue := by
  constructor
  · intro h hmin
    rw [hmin] at h
    exact printint_min t h
  · intro hmin
    refine ⟨decimal num.toInt, canonical_iff.mpr rfl, ?_⟩
    rw [printint_eq, printedText, if_neg hmin]

/-- On a blank screen the smallest number is not printed. -/
theorem printint_min_wrong : ¬ ∀ (num : Int32) (t : Terminal), ∃ chars, Canonical num.toInt chars ∧
    printint num t = .ok ((), terminalRun t chars) :=
  fun h => printint_min ⟨0, 0, 15, 0, []⟩ (h Int32.minValue ⟨0, 0, 15, 0, []⟩)

end BasicOS

import BasicOS.CString
import BasicOS.Stdlib.Itoa

/-! `atoi`, which the kernel and the user library have in the same words.

Its loop is meant to go on while there is a digit, and goes on while the character is not the
zero or is no digit: the zero is no digit, so no character ends it. It reads one byte after the
other and returns for no string at all (`atoi_never`), the ones that `itoa` makes included. -/
namespace BasicOS
open Lib

/-- The loop: the addresses read in so many turns, and the result if it ended. -/
def atoiFrom (mem : Memory) : Nat → Nat → Int32 → List Nat × Option Int32
  | 0, _, _ => ([], none)
  | turns + 1, str, result =>
    if mem str ≠ 0 ∨ mem str < 48 ∨ mem str > 57 then
      let rest := atoiFrom mem turns (str + 1) (result + (result * 10 + (Int32.ofNat (mem str).toNat - 48)))
      (str :: rest.1, rest.2)
    else ([str], some result)

def atoi (mem : Memory) (turns str : Nat) : List Nat × Option Int32 :=
  let isNeg := mem str = minus
  let run := atoiFrom mem turns (if isNeg then str + 1 else str) 0
  (str :: run.1, run.2.map fun result => if isNeg then result * -1 else result)

/-- What decoding the string at `str` means: the call returns, has read nothing behind the zero,
and the result is the value of the text in front where that is an `int`. -/
structure Decodes (mem : Memory) (str : Nat) (text : List UInt8) : Prop where
  returns : ∃ turns result, (atoi mem turns str).2 = some result ∧
    (∀ a ∈ (atoi mem turns str).1, a ≤ str + text.length) ∧
    (-2 ^ 31 ≤ leadingValue text → leadingValue text < 2 ^ 31 → result.toInt = leadingValue text)

variable {mem : Memory}

/-- No character ends the loop. -/
theorem atoiFrom_eq (turns str : Nat) (result : Int32) :
    atoiFrom mem turns str result = (List.range' str turns, none) := by
  induction turns generalizing str result with
  | zero => rfl
  | succ turns ih =>
    have hgoes : mem str ≠ 0 ∨ mem str < 48 ∨ mem str > 57 := by
      by_cases hzero : mem str = 0
      · rw [hzero]
        decide
      · exact .inl hzero
    unfold atoiFrom
    rw [if_pos hgoes]
    simp only [ih]
    rw [List.range'_succ]

theorem atoi_eq (turns str : Nat) : atoi mem turns str =
    (str :: List.range' (if mem str = minus then str + 1 else str) turns, none) := by
  unfold atoi
  simp only [atoiFrom_eq, Option.map_none]

theorem not_decodes (mem : Memory) (str : Nat) (text : List UInt8) : ¬ Decodes mem str text := by
  intro h
  obtain ⟨turns, result, hresult, _⟩ := h.returns
  rw [atoi_eq] at hresult
  cases hresult

/-- **`atoi` decodes no string.** Wherever a string stands, the call does not return, and it reads
behind the zero. -/
theorem atoi_never (mem : Memory) (str : Nat) (text : List UInt8) : ¬ Decodes mem str text ∧
    (∀ turns, (atoi mem turns str).2 = none) ∧ ∃ turns, ∃ a ∈ (atoi mem turns str).1, str + text.length < a := by
  refine ⟨not_decodes mem str text, fun turns => ?_, text.length + 2, str + text.length + 1, ?_, Nat.lt_succ_self _⟩
  · rw [atoi_eq]
  · rw [atoi_eq]
    apply List.mem_cons_of_mem
    rw [List.mem_range'_1]
    split <;> omega

/-- Not even `"7"` is decoded. -/
theorem atoi_seven : ¬ ∀ (mem : Memory) (str : Nat) (text : List UInt8), Stored mem str (text ++ [0]) →
    (∀ c ∈ text, c ≠ 0) → Decodes mem str text :=
  fun h => not_decodes _ _ _ (h (store (fun _ => 0) 0x400000 [55, 0]) 0x400000 [55] (stored_store _ _ _) (by simp))

/-- What `itoa` returns has the value of the number, and `atoi` does not give it back. -/
theorem atoi_itoa (num : Int32) (text : ItoaText) : ∃ loc chars text', itoa num text = .ok (loc, text') ∧
    text'.from loc = chars ++ [0] ∧ leadingValue chars = num.toInt ∧ ∀ mem str, ¬ Decodes mem str chars := by
  obtain ⟨loc, text', hrun, _, _, hfrom⟩ := itoa_spec num text
  exact ⟨loc, decimal num.toInt, text', hrun, hfrom, leadingValue_decimal _, fun mem str => not_decodes mem str _⟩

end BasicOS

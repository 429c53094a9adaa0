import BasicOS.Word
import BasicOS.Lib.Program
import BasicOS.Lib.Words
import BasicOS.Memory.KHeap
import Mathlib.Data.List.Forall2

/-! The tokeniser of user programs.

`strtok` keeps its place between calls in `sp`: behind the character that ended the last
token, where it stored a zero. What has not been looked at is still the string it was, up to
its zero (`Tokenizer.At`). A call skips delimiters and cuts the next word off that rest, or
finds none and forgets its place. So the calls give the words of the string one by one, and
each is still there when the others have been cut (`strtok_words`). -/
namespace BasicOS
open Lib Program

/-- A string, without its zero. -/
structure CStr where
  chars : List UInt8
  nonzero : ∀ c ∈ chars, c ≠ 0

/-- The memory of a user program comes from the heap of the kernel, and no string in it fills
`2 ^ 31` bytes: the length is an `int`. -/
structure Delimiters extends CStr where
  size : chars.length < 2 ^ 31

/-- The bytes of the object that is tokenised, and `sp` as an index into it. -/
structure Tokenizer where
  str : List UInt8
  sp : Option Nat

/-- Reads outside the object fault. -/
def Tokenizer.load (p : Nat) : Program Stop Tokenizer UInt8 := fun t =>
  match t.str[p]? with
  | none => .error .fault
  | some c => .ok (c, t)

/-- So do stores. -/
def Tokenizer.store (p : Nat) (c : UInt8) : Program Stop Tokenizer Unit := fun t =>
  if p < t.str.length then .ok ((), {t with str := t.str.set p c}) else .error .fault

/-- The loop over the delimiters: the index at which it is left. -/
def matchDelimiter (p : Nat) : List UInt8 → Nat → Program Stop Tokenizer Nat
  | [], i => return i
  | delimiter :: rest, i => do
    if (← Tokenizer.load p) = delimiter then return i
    matchDelimiter p rest (i + 1)

/-- The first loop: delimiters are skipped. -/
def skipDelimiters (delimiters : List UInt8) (len : Int) : Nat → Nat → Program Stop Tokenizer Nat
  | 0, _ => stop .diverges
  | turns + 1, pStart => do
    let i ← matchDelimiter pStart (delimiters.take len.toNat) 0
    if (i : Int) = len then return pStart
    skipDelimiters delimiters len turns (if (i : Int) < len then pStart + 1 else pStart)

/-- The second loop: the token is cut where a delimiter follows. -/
def cutToken (delimiters : List UInt8) (len : Int) : Nat → Nat → Program Stop Tokenizer Unit
  | 0, _ => stop .diverges
  | turns + 1, sp => do
    if (← Tokenizer.load sp) = 0 then return ()
    let i ← matchDelimiter sp (delimiters.take len.toNat) 0
    when ((i : Int) < len) (Tokenizer.store sp 0)
    modify fun t => {t with sp := some (sp + 1)}
    if (i : Int) < len then return ()
    cutToken delimiters len turns (sp + 1)

/-- `none` is the null pointer. Neither loop takes more turns than the object has bytes. -/
def strtok (str : Option Nat) (delimiters : Delimiters) : Program Stop Tokenizer (Option Nat) := do
  let len := s32 delimiters.chars.length
  let t ← get
  match str.or t.sp with
  | none => return none
  | some start =>
    modify fun t => {t with sp := some start}
    let pStart ← skipDelimiters delimiters.chars len (t.str.length + 1) start
    modify fun t => {t with sp := some pStart}
    if (← Tokenizer.load pStart) = 0 then
      modify fun t => {t with sp := none}
      return none
    cutToken delimiters.chars len (t.str.length + 1) pStart
    return some pStart

/-- Calls with the null pointer. -/
def strtokMore (delimiters : Delimiters) : Nat → Program Stop Tokenizer (List (Option Nat))
  | 0 => return []
  | calls + 1 => do
    let token ← strtok none delimiters
    return token :: (← strtokMore delimiters calls)

/-- A call with a string, and some more with the null pointer. -/
def strtokAll (delimiters : Delimiters) (calls : Nat) : Program Stop Tokenizer (List (Option Nat)) := do
  let token ← strtok (some 0) delimiters
  return token :: (← strtokMore delimiters calls)

def Delimiters.has (delimiters : Delimiters) (c : UInt8) : Bool := delimiters.chars.contains c

/-- The object before it is tokenised. -/
def CStr.object (s : CStr) : List UInt8 := s.chars ++ [0]

/-- There is a string at the pointer, and its zero. -/
def StringAt (str : List UInt8) (p : Nat) (w : List UInt8) : Prop :=
  (∀ c ∈ w, c ≠ 0) ∧ ∃ behind, str.drop p = w ++ 0 :: behind

/-- What has not been looked at is the string `rest`; `done` is in front of it. -/
structure Tokenizer.At (t : Tokenizer) (done rest after : List UInt8) : Prop where
  str : t.str = done ++ (rest ++ 0 :: after)
  sp : t.sp = some done.length
  nonzero : ∀ c ∈ rest, c ≠ 0

variable {A B : Type} {t : Tokenizer} {d : Delimiters} {done rest after : List UInt8}

/-! ### Looking at one character -/

theorem load_eq {p : Nat} {c : UInt8} (h : t.str[p]? = some c) : Tokenizer.load p t = .ok (c, t) := by
  unfold Tokenizer.load
  rw [h]

theorem load_behind {c : UInt8} (h : t.str = done ++ c :: after) : Tokenizer.load done.length t = .ok (c, t) := by
  apply load_eq
  rw [h, List.getElem?_append_right (Nat.le_refl _), Nat.sub_self]
  rfl

theorem store_behind {c a : UInt8} (h : t.str = done ++ c :: after) :
    Tokenizer.store done.length a t = .ok ((), {t with str := done ++ a :: after}) := by
  unfold Tokenizer.store
  rw [if_pos (by rw [h, List.length_append, List.length_cons]; omega), h, List.set_append_right _ _ (Nat.le_refl _),
    Nat.sub_self]
  rfl

/-- The loop over the delimiters stops at the first that is the character. -/
theorem matchDelimiter_eq {p : Nat} {c : UInt8} (hload : Tokenizer.load p t = .ok (c, t)) (delimiters : List UInt8)
    (i : Nat) : matchDelimiter p delimiters i t = .ok (i + delimiters.idxOf c, t) := by
  induction delimiters generalizing i with
  | nil => rfl
  | cons delimiter delimiters ih =>
    unfold matchDelimiter
    rw [bind_apply, hload]
    by_cases heq : c = delimiter
    · subst heq
      simp only [if_pos, List.idxOf_cons_self]
      rfl
    · have hne : (delimiter == c) = false := beq_false_of_ne (Ne.symm heq)
      simp only [if_neg heq]
      rw [ih, List.idxOf_cons, hne, cond_false, Nat.add_assoc, Nat.add_comm 1]

theorem Delimiters.len_eq (d : Delimiters) : s32 d.chars.length = (d.chars.length : Int) := s32_of_lt d.size

theorem Delimiters.scanned (d : Delimiters) : d.chars.take (s32 d.chars.length).toNat = d.chars := by
  rw [d.len_eq, Int.toNat_natCast, List.take_length]

/-- It ends before the end exactly at a delimiter. -/
theorem idxOf_lt_iff (d : Delimiters) (c : UInt8) :
    ((0 + d.chars.idxOf c : Nat) : Int) < s32 d.chars.length ↔ d.has c = true := by
  unfold Delimiters.has
  rw [d.len_eq, Nat.zero_add, Int.ofNat_lt, List.idxOf_lt_length_iff, List.contains_iff_mem]

theorem idxOf_eq_iff (d : Delimiters) (c : UInt8) :
    ((0 + d.chars.idxOf c : Nat) : Int) = s32 d.chars.length ↔ d.has c = false := by
  have hle : d.chars.idxOf c ≤ d.chars.length := List.idxOf_le_length
  have hlt := idxOf_lt_iff d c
  rw [d.len_eq] at hlt ⊢
  rw [← Bool.not_eq_true, ← hlt]
  omega

/-- The zero at the end is no delimiter. -/
theorem Delimiters.not_has_zero (d : Delimiters) : d.has 0 = false := by
  rw [← Bool.not_eq_true]
  unfold Delimiters.has
  rw [List.contains_iff_mem]
  exact fun hmem => d.nonzero 0 hmem rfl

/-! ### The two loops -/

theorem skipDelimiters_eq {turns : Nat} (h : t.str = done ++ (rest ++ 0 :: after)) (hturns : rest.length < turns) :
    skipDelimiters d.chars (s32 d.chars.length) turns done.length t =
      .ok ((done ++ rest.takeWhile d.has).length, t) := by
  induction rest generalizing done turns with
  | nil =>
    obtain ⟨turns, rfl⟩ := Nat.exists_eq_add_one_of_ne_zero (Nat.ne_of_gt hturns)
    unfold skipDelimiters
    rw [d.scanned, bind_apply, matchDelimiter_eq (load_behind h)]
    simp only [if_pos ((idxOf_eq_iff d 0).mpr d.not_has_zero)]
    rw [List.takeWhile_nil, List.append_nil]
    rfl
  | cons c rest ih =>
    obtain ⟨turns, rfl⟩ := Nat.exists_eq_add_one_of_ne_zero (Nat.ne_of_gt (Nat.zero_lt_of_lt hturns))
    unfold skipDelimiters
    rw [d.scanned, bind_apply, matchDelimiter_eq (load_behind h)]
    by_cases hdelimiter : d.has c = true
    · have hne : ¬ ((0 + d.chars.idxOf c : Nat) : Int) = s32 d.chars.length := by
        rw [idxOf_eq_iff, hdelimiter]
        exact Bool.true_eq_false_eq_False
      have hstr : t.str = (done ++ [c]) ++ (rest ++ 0 :: after) := by
        rw [h, List.append_assoc]
        rfl
      have hnext := ih hstr (Nat.lt_of_succ_lt_succ hturns)
      rw [List.length_append, List.length_singleton] at hnext
      simp only [if_neg hne, if_pos ((idxOf_lt_iff d c).mpr hdelimiter)]
      rw [hnext, List.takeWhile_cons_of_pos hdelimiter, List.append_assoc]
      rfl
    · rw [Bool.not_eq_true] at hdelimiter
      simp only [if_pos ((idxOf_eq_iff d c).mpr hdelimiter)]
      rw [List.takeWhile_cons_of_neg (by rw [hdelimiter]; exact Bool.false_ne_true), List.append_nil]
      rfl

/-- The turn at a delimiter, which becomes the zero of the token. -/
theorem cutToken_delimiter {c : UInt8} (h : t.At done (c :: rest) after) (hdelimiter : d.has c = true) (turns : Nat) :
    ∃ t', cutToken d.chars (s32 d.chars.length) (turns + 1) done.length t = .ok ((), t') ∧
      t'.At (done ++ [0]) rest after := by
  have hrest : ∀ a ∈ rest, a ≠ 0 := fun a ha => h.nonzero a (List.mem_cons_of_mem c ha)
  unfold cutToken
  rw [d.scanned, bind_apply, load_behind h.str]
  simp only [if_neg (h.nonzero c (List.mem_cons_self ..))]
  rw [bind_apply, matchDelimiter_eq (load_behind h.str)]
  simp only
  rw [when_true ((idxOf_lt_iff d c).mpr hdelimiter), bind_apply, store_behind h.str]
  simp only [if_pos ((idxOf_lt_iff d c).mpr hdelimiter)]
  refine ⟨_, rfl, ?_, ?_, hrest⟩
  · show done ++ 0 :: (rest ++ 0 :: after) = _
    rw [List.append_assoc]
    rfl
  · rw [List.length_append]
    rfl

/-- The turn at any other character, which the loop passes. -/
theorem cutToken_character {c : UInt8} (h : t.At done (c :: rest) after) (hcharacter : d.has c = false) (turns : Nat) :
    ∃ t', cutToken d.chars (s32 d.chars.length) (turns + 1) done.length t =
        cutToken d.chars (s32 d.chars.length) turns (done ++ [c]).length t' ∧ t'.At (done ++ [c]) rest after := by
  have hrest : ∀ a ∈ rest, a ≠ 0 := fun a ha => h.nonzero a (List.mem_cons_of_mem c ha)
  have hgo : ¬ ((0 + d.chars.idxOf c : Nat) : Int) < s32 d.chars.length := by
    rw [idxOf_lt_iff, hcharacter]
    exact Bool.false_ne_true
  refine ⟨{t with sp := some (done.length + 1)}, ?_, ?_, ?_, hrest⟩
  · rw [List.length_append, List.length_singleton, cutToken, d.scanned, bind_apply, load_behind h.str]
    simp only [if_neg (h.nonzero c (List.mem_cons_self ..))]
    rw [bind_apply, matchDelimiter_eq (load_behind h.str)]
    simp only
    rw [when_false hgo, bind_apply, pure_apply]
    simp only [if_neg hgo]
    rw [bind_apply, modify_apply]
  · show t.str = _
    rw [h.str, List.append_assoc]
    rfl
  · rw [List.length_append]
    rfl

/-- A token is cut off what has not been looked at. -/
theorem cutToken_spec {turns : Nat} (h : t.At done rest after) (hturns : rest.length < turns) :
    ∃ t' done' rest', cutToken d.chars (s32 d.chars.length) turns done.length t = .ok ((), t') ∧
      t'.At done' rest' after ∧ words d.has rest' = words d.has (rest.dropWhile fun c => !d.has c) ∧
      StringAt t'.str done.length (rest.takeWhile fun c => !d.has c) ∧
      done.length + (rest.takeWhile fun c => !d.has c).length ≤ done'.length ∧ ∃ cut, done' = done ++ cut := by
  induction rest generalizing t done turns with
  | nil =>
    obtain ⟨turns, rfl⟩ := Nat.exists_eq_add_one_of_ne_zero (Nat.ne_of_gt hturns)
    refine ⟨t, done, [], ?_, h, rfl, ⟨?_, after, ?_⟩, Nat.le_refl _, [], (List.append_nil done).symm⟩
    · unfold cutToken
      rw [bind_apply, load_behind h.str]
      rfl
    · exact fun c hc => absurd hc List.not_mem_nil
    · rw [h.str, List.drop_left]
      rfl
  | cons c rest ih =>
    obtain ⟨turns, rfl⟩ := Nat.exists_eq_add_one_of_ne_zero (Nat.ne_of_gt (Nat.zero_lt_of_lt hturns))
    by_cases hdelimiter : d.has c = true
    · obtain ⟨t', hcut, hat⟩ := cutToken_delimiter h hdelimiter turns
      rw [List.takeWhile_cons_of_neg (by simp [hdelimiter]), List.dropWhile_cons_of_neg (by simp [hdelimiter])]
      refine ⟨t', done ++ [0], rest, hcut, hat, (words_cons_sep hdelimiter rest).symm, ⟨?_, rest ++ 0 :: after, ?_⟩, ?_,
        _, rfl⟩
      · exact fun a ha => absurd ha List.not_mem_nil
      · rw [hat.str, List.append_assoc, List.drop_left]
        rfl
      · rw [List.length_append]
        exact Nat.le_succ _
    · rw [Bool.not_eq_true] at hdelimiter
      rw [List.takeWhile_cons_of_pos (by simp [hdelimiter]), List.dropWhile_cons_of_pos (by simp [hdelimiter])]
      obtain ⟨t₁, hturn, hat⟩ := cutToken_character h hdelimiter turns
      obtain ⟨t', done', rest', hcut, hat', hwords, ⟨hne, behind, hdrop⟩, hlen, cut, hdone⟩ :=
        ih hat (Nat.lt_of_succ_lt_succ hturns)
      have hstr : t'.str = done ++ c :: (cut ++ (rest' ++ 0 :: after)) := by
        rw [hat'.str, hdone, List.append_assoc, List.append_assoc]
        rfl
      refine ⟨t', done', rest', hturn.trans hcut, hat', hwords, ⟨?_, behind, ?_⟩, ?_, c :: cut, ?_⟩
      · intro a ha
        rcases List.mem_cons.mp ha with rfl | ha
        · exact h.nonzero a (List.mem_cons_self ..)
        · exact hne a ha
      · rw [hstr, List.append_cons done c (cut ++ _), List.drop_left] at hdrop
        rw [hstr, List.drop_left, hdrop]
        rfl
      · rw [List.length_append, List.length_singleton] at hlen
        rw [List.length_cons]
        omega
      · rw [hdone, List.append_assoc]
        rfl

/-! ### One call -/

/-- After the last token there are no more. -/
theorem strtok_null (h : t.sp = none) : strtok none d t = .ok (none, t) := by
  unfold strtok
  rw [bind_apply, get_apply]
  simp only [h]
  rfl

/-- Delimiters are skipped first. -/
theorem strtok_skip (h : t.At done rest after) : strtok none d t = (do
    let pStart := (done ++ rest.takeWhile d.has).length
    if (← Tokenizer.load pStart) = 0 then
      modify fun t => {t with sp := none}
      return none
    cutToken d.chars (s32 d.chars.length) (t.str.length + 1) pStart
    return some pStart : Program Stop Tokenizer (Option Nat))
      {t with sp := some (done ++ rest.takeWhile d.has).length} := by
  have hstr : Tokenizer.str {t with sp := some done.length} = done ++ (rest ++ 0 :: after) := h.str
  have hturns : rest.length < t.str.length + 1 := by
    rw [h.str, List.length_append, List.length_append]
    omega
  unfold strtok
  rw [bind_apply, get_apply]
  simp only [h.sp, Option.none_or]
  rw [bind_apply, modify_apply]
  simp only
  rw [bind_apply, skipDelimiters_eq hstr hturns]
  rfl

/-- Without a word left the call forgets its place. -/
theorem strtok_end (h : t.At done rest after) (hwords : words d.has rest = []) :
    strtok none d t = .ok (none, {t with sp := none}) := by
  have hnone : rest.dropWhile d.has = [] := by
    cases hrest : rest.dropWhile d.has with
    | nil => rfl
    | cons a l =>
      rw [← words_skip, hrest, words_run (dropWhile_head hrest)] at hwords
      cases hwords
  have hall : rest.takeWhile d.has = rest := by
    conv_rhs => rw [← List.takeWhile_append_dropWhile (p := d.has) (l := rest), hnone, List.append_nil]
  have hstr : Tokenizer.str {t with sp := some (done ++ rest).length} = (done ++ rest) ++ 0 :: after := by
    rw [h.str, List.append_assoc]
  rw [strtok_skip h, hall]
  simp only
  rw [bind_apply, load_behind hstr]
  rfl

/-- The next word is cut off. -/
theorem strtok_token {w : List UInt8} {more : List (List UInt8)} (h : t.At done rest after)
    (hwords : words d.has rest = w :: more) :
    ∃ p t' done' rest', strtok none d t = .ok (some p, t') ∧ t'.At done' rest' after ∧
      words d.has rest' = more ∧ StringAt t'.str p w ∧ p + w.length ≤ done'.length ∧
      ∃ cut, done' = done ++ cut := by
  rw [← words_skip] at hwords
  cases hrest : rest.dropWhile d.has with
  | nil =>
    rw [hrest, words_nil] at hwords
    cases hwords
  | cons a l =>
    rw [hrest, words_run (dropWhile_head hrest), List.cons.injEq] at hwords
    obtain ⟨rfl, rfl⟩ := hwords
    have hsplit : rest = rest.takeWhile d.has ++ a :: l := by
      conv_lhs => rw [← List.takeWhile_append_dropWhile (p := d.has) (l := rest), hrest]
    have hstr : t.str = (done ++ rest.takeWhile d.has) ++ ((a :: l) ++ 0 :: after) := by
      rw [h.str, List.append_assoc, ← List.append_assoc _ (a :: l), ← hsplit]
    have hat : Tokenizer.At {t with sp := some (done ++ rest.takeWhile d.has).length}
        (done ++ rest.takeWhile d.has) (a :: l) after :=
      ⟨hstr, rfl, fun c hc => h.nonzero c (by rw [hsplit]; exact List.mem_append_right _ hc)⟩
    have hturns : (a :: l).length < t.str.length + 1 := by
      rw [hstr]
      simp only [List.length_append, List.length_cons]
      omega
    obtain ⟨t', done', rest', hcut, hat', hmore, hstring, hlen, cut, hdone⟩ := cutToken_spec (d := d) hat hturns
    refine ⟨_, t', done', rest', ?_, hat', hmore, hstring, hlen, rest.takeWhile d.has ++ cut, ?_⟩
    · rw [strtok_skip h]
      simp only
      rw [bind_apply, load_behind hat.str]
      simp only [if_neg (hat.nonzero a (List.mem_cons_self ..))]
      rw [bind_apply, hcut]
      rfl
    · rw [hdone, List.append_assoc]

/-! ### The calls one after another -/

/-- What was cut off stays. -/
theorem StringAt.keep {t' : Tokenizer} {p : Nat} {w : List UInt8} (hw : StringAt t.str p w)
    (h : t.At done rest after) (hp : p + w.length ≤ done.length) (hdone : ∃ x, t'.str = done ++ x)
    (hend : rest = [] → t'.str = t.str) :
    StringAt t'.str p w := by
  obtain ⟨hne, behind, hdrop⟩ := hw
  refine ⟨hne, ?_⟩
  by_cases hnil : rest = []
  · exact ⟨behind, by rw [hend hnil, hdrop]⟩
  obtain ⟨a, l, rfl⟩ := List.exists_cons_of_ne_nil hnil
  obtain ⟨x, hx⟩ := hdone
  have hzero : t.str[p + w.length]? = some 0 := by
    rw [← List.getElem?_drop, hdrop, List.getElem?_append_right (Nat.le_refl _), Nat.sub_self]
    rfl
  have hlt : p + w.length < done.length := by
    refine Nat.lt_of_le_of_ne hp fun heq => ?_
    rw [heq, h.str, List.getElem?_append_right (Nat.le_refl _), Nat.sub_self] at hzero
    exact h.nonzero a (List.mem_cons_self ..) (Option.some.inj hzero)
  have hfront : (done.drop p).take (w.length + 1) = w ++ [0] := by
    have htake := congrArg (List.take (w.length + 1)) hdrop
    rw [h.str, List.drop_append_of_le_length (by omega),
      List.take_append_of_le_length (by rw [List.length_drop]; omega), List.take_length_add_append] at htake
    exact htake
  refine ⟨(done.drop p).drop (w.length + 1) ++ x, ?_⟩
  rw [hx, List.drop_append_of_le_length (by omega)]
  conv_lhs => rw [← List.take_append_drop (w.length + 1) (done.drop p), hfront]
  simp only [List.append_assoc, List.cons_append, List.nil_append]

/-- Once there are no tokens left every call says so. -/
theorem strtokMore_null (calls : Nat) (h : t.sp = none) :
    strtokMore d calls t = .ok (List.replicate calls none, t) := by
  induction calls with
  | zero => rfl
  | succ calls ih =>
    unfold strtokMore
    rw [bind_apply, strtok_null h]
    simp only
    rw [bind_apply, ih]
    rfl

/-- What the calls should return: the words in order, and then null. -/
def expected (all : List (List UInt8)) (calls : Nat) : List (Option (List UInt8)) :=
  (List.range calls).map fun i => all[i]?

theorem expected_nil (calls : Nat) : expected [] calls = List.replicate calls none := by
  unfold expected
  rw [List.eq_replicate_iff]
  refine ⟨by rw [List.length_map, List.length_range], fun r hr => ?_⟩
  obtain ⟨i, _, rfl⟩ := List.mem_map.mp hr
  rfl

theorem expected_cons (w : List UInt8) (more : List (List UInt8)) (calls : Nat) :
    expected (w :: more) (calls + 1) = some w :: expected more calls := by
  unfold expected
  rw [List.range_succ_eq_map, List.map_cons, List.map_map]
  rfl

theorem forall₂_replicate_none (R : A → B → Prop) (calls : Nat) :
    List.Forall₂ (Option.Rel R) (List.replicate calls none) (List.replicate calls none) := by
  induction calls with
  | zero => exact .nil
  | succ calls ih => exact .cons .none ih

/-- The calls return the words that are left, which stay where they were cut. -/
theorem strtokMore_words (calls : Nat) (h : t.At done rest after) :
    ∃ tokens t', strtokMore d calls t = .ok (tokens, t') ∧
      List.Forall₂ (Option.Rel (StringAt t'.str)) tokens (expected (words d.has rest) calls) ∧
      (∃ x, t'.str = done ++ x) ∧ (rest = [] → t'.str = t.str) := by
  induction calls generalizing t done rest with
  | zero => exact ⟨[], t, rfl, .nil, ⟨_, h.str⟩, fun _ => rfl⟩
  | succ calls ih =>
    cases hwords : words d.has rest with
    | nil =>
      refine ⟨List.replicate (calls + 1) none, {t with sp := none}, ?_, ?_, ⟨_, h.str⟩, fun _ => rfl⟩
      · unfold strtokMore
        rw [bind_apply, strtok_end h hwords]
        simp only
        rw [bind_apply, strtokMore_null calls rfl]
        rfl
      · rw [expected_nil]
        exact forall₂_replicate_none _ _
    | cons w more =>
      obtain ⟨p, t₁, done₁, rest₁, hcall, hat, rfl, hstring, hlen, cut, rfl⟩ := strtok_token h hwords
      obtain ⟨tokens, t', hmore, hall, ⟨x, hx⟩, hend⟩ := ih hat
      refine ⟨some p :: tokens, t', ?_, ?_, ⟨cut ++ x, ?_⟩, fun hnil => ?_⟩
      · unfold strtokMore
        rw [bind_apply, hcall]
        simp only
        rw [bind_apply, hmore]
        rfl
      · rw [expected_cons]
        exact .cons (.some (hstring.keep hat hlen ⟨x, hx⟩ hend)) hall
      · rw [hx, List.append_assoc]
      · rw [hnil, words_nil] at hwords
        cases hwords

/-- **Tokenising gives the words of the string**: one call with it and any number with the null
pointer end, read and write nothing outside it, and return in order its longest runs without
a delimiter, each with its zero and still there at the end; after the last word every call
returns null. -/
theorem strtok_words (s : CStr) (d : Delimiters) (sp : Option Nat) (calls : Nat) :
    ∃ tokens t', strtokAll d calls ⟨s.object, sp⟩ = .ok (tokens, t') ∧
      List.Forall₂ (Option.Rel (StringAt t'.str)) tokens (expected (words d.has s.chars) (calls + 1)) := by
  have hat : Tokenizer.At ⟨s.object, some 0⟩ [] s.chars [] := ⟨rfl, rfl, s.nonzero⟩
  obtain ⟨tokens, t', hcalls, hall, _⟩ := strtokMore_words (d := d) (calls + 1) hat
  refine ⟨tokens, t', ?_, hall⟩
  rw [← hcalls]
  rfl

example : strtokAll ⟨⟨[44], List.forall_mem_singleton.mpr (by decide)⟩, by decide⟩ 2 ⟨[44, 97, 44, 44, 98, 0], none⟩ =
    .ok ([some 1, some 4, none], ⟨[44, 97, 0, 44, 98, 0], none⟩) := rfl

end BasicOS

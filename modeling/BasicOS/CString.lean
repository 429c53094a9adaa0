import BasicOS.Word
import BasicOS.Lib.Memory
import Mathlib.Data.List.GetD

/-! Characters and strings as `string.c` treats them.

A string is its bytes before the terminating zero; reading at its end gives the zero. In
memory it is read up to a bound, and `strncpy` copies it with a zero behind it
(`strncpy_eq`). -/
namespace BasicOS
open Lib

abbrev fsMaxPathLen : Nat := 108

/-- `'/'`. -/
abbrev slash : UInt8 := 0x2F

def tolower (ch : UInt8) : UInt8 := if ch < 65 ∨ ch > 90 then ch else ch + 32

def isdigit (c : UInt8) : Bool := c > 47 && c < 58

def atoic (ch : UInt8) : Int := ch.toNat - 48

/-- The loop of `istrncmp` with the characters left. -/
def istrncmp (str1 str2 : List UInt8) : Nat → Int
  | 0 => 0
  | max + 1 =>
    let u1 := str1.headD 0
    let u2 := str2.headD 0
    if u1 ≠ u2 ∧ tolower u1 ≠ tolower u2 then u1.toNat - u2.toNat
    else if u1 = 0 then 0
    else istrncmp str1.tail str2.tail max

/-! ### Strings in memory -/

/-- The string at `a`, of at most that many characters. -/
def stringAt (mem : Memory) (a : Nat) : Nat → List UInt8
  | 0 => []
  | n + 1 => if mem a = 0 then [] else mem a :: stringAt mem (a + 1) n

/-- The loop of `strncpy` with the characters left, and the zero. -/
def strncpyFrom (mem : Memory) : Nat → Nat → Nat → Memory
  | 0, dst, _ => Function.update mem dst 0
  | n + 1, dst, src =>
    if mem src = 0 then Function.update mem dst 0
    else strncpyFrom (Function.update mem dst (mem src)) n (dst + 1) (src + 1)

def strncpy (mem : Memory) (dst src size : Nat) : Memory :=
  if size = 0 then mem else strncpyFrom mem (size - 1) dst src

variable {mem m : Memory} {a n : Nat} {bytes : List UInt8}

theorem stringAt_zero (h : mem a = 0) (n : Nat) : stringAt mem a (n + 1) = [] := if_pos h

theorem stringAt_char (h : mem a ≠ 0) (n : Nat) : stringAt mem a (n + 1) = mem a :: stringAt mem (a + 1) n := if_neg h

/-- The same bytes, perhaps elsewhere, are the same string. -/
theorem stringAt_shift {b : Nat} (h : ∀ k, k < n → m (b + k) = mem (a + k)) : stringAt m b n = stringAt mem a n := by
  induction n generalizing a b with
  | zero => rfl
  | succ n ih =>
    have hrest : stringAt m (b + 1) n = stringAt mem (a + 1) n := by
      refine ih fun k hk => ?_
      rw [Nat.add_assoc, Nat.add_assoc, Nat.add_comm 1 k]
      exact h (k + 1) (by omega)
    have hfirst : m b = mem a := h 0 (Nat.succ_pos n)
    unfold stringAt
    rw [hfirst, hrest]

theorem stringAt_congr (h : ∀ b, a ≤ b → b < a + n → m b = mem b) : stringAt m a n = stringAt mem a n :=
  stringAt_shift fun k hk => h (a + k) (by omega) (by omega)

theorem length_stringAt_le (mem : Memory) (a n : Nat) : (stringAt mem a n).length ≤ n := by
  induction n generalizing a with
  | zero => exact Nat.le_refl 0
  | succ n ih =>
    unfold stringAt
    split
    · exact Nat.zero_le _
    · exact Nat.succ_le_succ (ih (a + 1))

theorem stringAt_ne_zero {c : UInt8} (hc : c ∈ stringAt mem a n) : c ≠ 0 := by
  induction n generalizing a with
  | zero => cases hc
  | succ n ih =>
    unfold stringAt at hc
    split at hc
    · cases hc
    · rcases List.mem_cons.mp hc with rfl | hc
      · assumption
      · exact ih hc

/-- A string that ends before the bound does not depend on it. -/
theorem stringAt_succ {k : Nat} (hk : k ≤ n) (hzero : mem (a + k) = 0) : stringAt mem a (n + 1) = stringAt mem a n := by
  induction n generalizing a k with
  | zero =>
    obtain rfl : k = 0 := by omega
    exact stringAt_zero hzero 0
  | succ n ih =>
    by_cases hfirst : mem a = 0
    · rw [stringAt_zero hfirst, stringAt_zero hfirst]
    · rw [stringAt_char hfirst, stringAt_char hfirst]
      cases k with
      | zero => exact absurd hzero hfirst
      | succ k => rw [ih (k := k) (by omega) (by rwa [Nat.add_assoc, Nat.add_comm 1 k])]

theorem store_singleton (mem : Memory) (a : Nat) (c : UInt8) : store mem a [c] = Function.update mem a c := by
  funext b
  unfold store
  by_cases hb : b = a
  · subst hb
    rw [if_pos (by simp), Function.update_self, Nat.sub_self]
    rfl
  · rw [if_neg (by simp only [List.length_singleton]; omega), Function.update_of_ne hb]

theorem store_update (mem : Memory) (a : Nat) (c : UInt8) (bytes : List UInt8) :
    store (Function.update mem a c) (a + 1) bytes = store mem a (c :: bytes) := by
  funext b
  unfold store
  simp only [List.length_cons]
  by_cases hb : b = a
  · subst hb
    rw [if_neg (by omega), if_pos (by omega), Function.update_self, Nat.sub_self]
    rfl
  · by_cases hin : a + 1 ≤ b ∧ b < a + 1 + bytes.length
    · rw [if_pos hin, if_pos (by omega), show b - a = b - (a + 1) + 1 by omega, List.getD_cons_succ]
    · rw [if_neg hin, if_neg (by omega), Function.update_of_ne hb]

theorem strncpyFrom_eq {dst src : Nat} (h : dst + n ≤ src ∨ src + n ≤ dst) :
    strncpyFrom mem n dst src = store mem dst (stringAt mem src n ++ [0]) := by
  induction n generalizing mem dst src with
  | zero => exact (store_singleton mem dst 0).symm
  | succ n ih =>
    unfold strncpyFrom stringAt
    split
    · exact (store_singleton mem dst 0).symm
    · rw [ih (by omega), List.cons_append, ← store_update]
      refine congrArg (fun bytes => store _ _ (bytes ++ [0])) (stringAt_congr fun b h1 h2 => ?_)
      exact Function.update_of_ne (by omega) ..

theorem sameOutside_strncpyFrom (mem : Memory) (n dst src : Nat) :
    SameOutside ⟨dst, n + 1⟩ mem (strncpyFrom mem n dst src) := by
  induction n generalizing mem dst src with
  | zero =>
    intro b hb
    rw [Extent.holds_mk] at hb
    exact Function.update_of_ne (by omega) ..
  | succ n ih =>
    intro b hb
    rw [Extent.holds_mk] at hb
    unfold strncpyFrom
    split
    · exact Function.update_of_ne (by omega) ..
    · rw [ih _ _ _ b (by rw [Extent.holds_mk]; omega)]
      exact Function.update_of_ne (by omega) ..

/-- `strncpy` writes inside its destination only. -/
theorem sameOutside_strncpy (mem : Memory) (dst src size : Nat) :
    SameOutside ⟨dst, size⟩ mem (strncpy mem dst src size) := by
  unfold strncpy
  split
  · exact SameOutside.refl _ _
  · rename_i hsize
    have h := sameOutside_strncpyFrom mem (size - 1) dst src
    rwa [Nat.sub_add_cancel (Nat.one_le_iff_ne_zero.mpr hsize)] at h

/-- `strncpy` stores the string of at most `size - 1` characters and a zero. -/
theorem strncpy_eq {dst src size : Nat} (hsize : size ≠ 0) (h : dst + size ≤ src ∨ src + size ≤ dst) :
    strncpy mem dst src size = store mem dst (stringAt mem src (size - 1) ++ [0]) := by
  unfold strncpy
  rw [if_neg hsize]
  exact strncpyFrom_eq (by omega)

/-! ### Strings read a character at a time -/

/-- What is read with at most `n` characters up to a zero, where `next` gives the character
that follows those read already. -/
structure ReadBy (next : List UInt8 → UInt8) (n : Nat) (text : List UInt8) : Prop where
  length : text.length ≤ n
  nonzero : ∀ c ∈ text, c ≠ 0
  read : ∀ k, k < n → k ≤ text.length → next (text.take k) = text.getD k 0

variable {next : List UInt8 → UInt8} {text : List UInt8}

theorem readBy_nil (h : 0 < n → next [] = 0) : ReadBy next n [] :=
  ⟨Nat.zero_le n, fun c hc => (List.not_mem_nil hc).elim, fun k hk _ => by
    rw [List.take_nil]
    exact h (by omega)⟩

theorem readBy_cons {c : UInt8} (hc : c ≠ 0) (hfirst : next [] = c) (h : ReadBy (fun t => next (c :: t)) n text) :
    ReadBy next (n + 1) (c :: text) := by
  refine ⟨Nat.succ_le_succ h.length, fun d hd => ?_, fun k hk hlen => ?_⟩
  · rcases List.mem_cons.mp hd with rfl | hd
    · exact hc
    · exact h.nonzero d hd
  · cases k with
    | zero => exact hfirst
    | succ k => exact h.read k (by omega) (Nat.le_of_succ_le_succ hlen)

theorem ReadBy.eq_nil (h : ReadBy next n text) (hn : 0 < n) (hzero : next [] = 0) : text = [] := by
  cases text with
  | nil => rfl
  | cons c rest => exact absurd ((h.read 0 hn (Nat.zero_le _)).symm.trans hzero) (h.nonzero c (List.mem_cons_self ..))

/-- The characters after the first are read behind it. -/
theorem ReadBy.uncons {c : UInt8} (h : ReadBy next (n + 1) text) (hfirst : next [] = c) (hc : c ≠ 0) :
    ∃ rest, text = c :: rest ∧ ReadBy (fun t => next (c :: t)) n rest := by
  have hread := h.read 0 (Nat.succ_pos n) (Nat.zero_le _)
  cases text with
  | nil => exact absurd (hfirst.symm.trans hread) hc
  | cons d rest =>
    obtain rfl : c = d := hfirst.symm.trans hread
    refine ⟨rest, rfl, Nat.le_of_succ_le_succ h.length, fun d hd => ?_, fun k hk hlen => ?_⟩
    · exact h.nonzero d (List.mem_cons_of_mem _ hd)
    · exact h.read (k + 1) (Nat.succ_lt_succ hk) (Nat.succ_le_succ hlen)

theorem readBy_congr {next' : List UInt8 → UInt8} (h : ∀ t, t.length < n → next t = next' t) :
    ReadBy next n text ↔ ReadBy next' n text := by
  have hread : ∀ k, k < n → next (text.take k) = next' (text.take k) := fun k hk =>
    h _ (Nat.lt_of_le_of_lt (List.length_take_le _ _) hk)
  constructor
  · exact fun ht => ⟨ht.length, ht.nonzero, fun k hk hlen => (hread k hk).symm.trans (ht.read k hk hlen)⟩
  · exact fun ht => ⟨ht.length, ht.nonzero, fun k hk hlen => (hread k hk).trans (ht.read k hk hlen)⟩

/-- Only one string can be read. -/
theorem ReadBy.unique {text' : List UInt8} (h : ReadBy next n text) (h' : ReadBy next n text') : text = text' := by
  induction n generalizing next text text' with
  | zero =>
    rw [List.eq_nil_of_length_eq_zero (Nat.le_zero.mp h.length),
      List.eq_nil_of_length_eq_zero (Nat.le_zero.mp h'.length)]
  | succ n ih =>
    by_cases hzero : next [] = 0
    · rw [h.eq_nil (Nat.succ_pos n) hzero, h'.eq_nil (Nat.succ_pos n) hzero]
    · obtain ⟨rest, rfl, hrest⟩ := h.uncons rfl hzero
      obtain ⟨rest', rfl, hrest'⟩ := h'.uncons rfl hzero
      rw [ih hrest hrest']

/-- And one can be. -/
theorem exists_readBy (next : List UInt8 → UInt8) (n : Nat) : ∃ text, ReadBy next n text := by
  induction n generalizing next with
  | zero => exact ⟨[], readBy_nil fun h => absurd h (by decide)⟩
  | succ n ih =>
    by_cases hzero : next [] = 0
    · exact ⟨[], readBy_nil fun _ => hzero⟩
    · obtain ⟨rest, hrest⟩ := ih fun t => next (next [] :: t)
      exact ⟨next [] :: rest, readBy_cons hzero rfl hrest⟩

theorem readBy_stringAt (mem : Memory) (a n : Nat) : ReadBy (fun t => mem (a + t.length)) n (stringAt mem a n) := by
  induction n generalizing a with
  | zero => exact readBy_nil fun h => absurd h (by decide)
  | succ n ih =>
    by_cases hfirst : mem a = 0
    · rw [stringAt_zero hfirst]
      exact readBy_nil fun _ => hfirst
    · rw [stringAt_char hfirst]
      refine readBy_cons hfirst rfl ?_
      have h := ih (a + 1)
      simp only [List.length_cons]
      simpa only [Nat.add_assoc, Nat.add_comm 1] using h

/-- What is read is the string at `a` just when at each of its addresses, and at its end, the
character read is the one there. -/
theorem readBy_stringAt_iff : ReadBy next n (stringAt mem a n) ↔
    ∀ k, k < n → k ≤ (stringAt mem a n).length → next ((stringAt mem a n).take k) = mem (a + k) := by
  have hstring := readBy_stringAt mem a n
  have hchar : ∀ k, k < n → k ≤ (stringAt mem a n).length → (stringAt mem a n).getD k 0 = mem (a + k) := by
    intro k hk hlen
    have hread := hstring.read k hk hlen
    simp only [List.length_take, Nat.min_eq_left hlen] at hread
    exact hread.symm
  constructor
  · intro h k hk hlen
    rw [← hchar k hk hlen]
    exact h.read k hk hlen
  · intro hall
    refine ⟨hstring.length, hstring.nonzero, fun k hk hlen => ?_⟩
    rw [hchar k hk hlen]
    exact hall k hk hlen

/-! ### Strings with their zero -/

/-- The zero at the end is what `getD` finds there anyway. -/
theorem getD_terminated (bytes : List UInt8) (k : Nat) : (bytes ++ [0]).getD k 0 = bytes.getD k 0 := by
  rcases Nat.lt_or_ge k bytes.length with hlt | hge
  · exact List.getD_append _ _ _ _ hlt
  · rw [List.getD_append_right _ _ _ _ hge, List.getD_eq_default _ _ hge]
    cases k - bytes.length <;> rfl

/-- A string with its zero is what is read back, with any bound that lets it be read. -/
theorem stringAt_of_stored (hstored : Stored mem a (bytes ++ [0])) (hne : ∀ c ∈ bytes, c ≠ 0)
    (hlen : bytes.length ≤ n) : stringAt mem a n = bytes := by
  refine (readBy_stringAt mem a n).unique ⟨hlen, hne, fun k _ hk => ?_⟩
  have hbound : k < (bytes ++ [0]).length := by
    rw [List.length_append, List.length_singleton]
    omega
  rw [List.length_take, Nat.min_eq_left hk, hstored k hbound]
  exact getD_terminated bytes k

/-- A string that ends before the bound is stored with its zero. -/
theorem stored_stringAt (h : (stringAt mem a n).length < n) : Stored mem a (stringAt mem a n ++ [0]) := by
  induction n generalizing a with
  | zero => exact absurd h (Nat.not_lt_zero _)
  | succ n ih =>
    by_cases hfirst : mem a = 0
    · rw [stringAt_zero hfirst]
      intro i hi
      obtain rfl : i = 0 := Nat.lt_one_iff.mp hi
      exact hfirst
    · rw [stringAt_char hfirst] at h ⊢
      have hrest := ih (Nat.lt_of_succ_lt_succ h)
      intro i hi
      cases i with
      | zero => rfl
      | succ i =>
        rw [← Nat.add_assoc, Nat.add_right_comm]
        exact hrest i (Nat.lt_of_succ_lt_succ hi)

theorem stringAt_store (mem : Memory) (a : Nat) (hne : ∀ c ∈ bytes, c ≠ 0) (hlen : bytes.length ≤ n) :
    stringAt (store mem a (bytes ++ [0])) a n = bytes :=
  stringAt_of_stored (stored_store mem a _) hne hlen

/-- Two strings with their zeros at one place. -/
theorem stored_unique (h : Stored mem a (bytes ++ [0])) (h' : Stored mem a (text ++ [0]))
    (hne : ∀ c ∈ bytes, c ≠ 0) (hne' : ∀ c ∈ text, c ≠ 0) : bytes = text := by
  have hbytes := stringAt_of_stored h hne (Nat.le_max_left bytes.length text.length)
  rw [← hbytes]
  exact stringAt_of_stored h' hne' (Nat.le_max_right _ _)

end BasicOS

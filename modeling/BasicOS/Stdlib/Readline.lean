import BasicOS.CString

/-! `terminal_readline` of the user library, as a line editor.

An editor keeps a line: a key is put at its end, a backspace takes the last character off and
does nothing to an empty line. The loop of `terminal_readline` does the first two, but its
backspace is only one where there is a character: at the beginning of the line it is stored like
any other key, and the next one takes it off again. So the line stored is the editor's, or the
editor's behind a stray backspace (`storedLine_stray`), and the calls that end while there is
none are those that return the line that was edited (`terminalReadline_edits_iff`). -/
namespace BasicOS
open Lib

/-- Carriage return. -/
abbrev carriageReturn : UInt8 := 0x0D

abbrev backspace : UInt8 := 0x08

/-- Memory, and the characters put out while typing. -/
structure Typing where
  mem : Memory
  shown : List UInt8

def Typing.store (s : Typing) (a : Int) (c : UInt8) : Typing := {s with mem := Function.update s.mem a.toNat c}

/-- What calls of `getkey` return one after the other: it asks the kernel until there is a key. -/
def getkeys (polled : List UInt8) : List UInt8 := polled.filter fun key => key != 0

/-- The loop. The result is `none` while it waits for a key. -/
def readlineFrom (out max : Int) (outputWhileTyping : Bool) : List UInt8 → Int → Typing → Option Int × Typing
  | [], i, s => if i < max - 1 then (none, s) else (some i, s.store (out + i) 0)
  | key :: keys, i, s =>
    if i < max - 1 then
      if key = carriageReturn then (some i, s.store (out + i) 0)
      else
        let s := if outputWhileTyping then {s with shown := s.shown ++ [key]} else s
        if key = backspace ∧ i ≥ 1 then
          -- two less, and one more for the next turn
          readlineFrom out max outputWhileTyping keys (i - 2 + 1) (s.store (out + (i - 1)) 0)
        else readlineFrom out max outputWhileTyping keys (i + 1) (s.store (out + i) key)
    else (some i, s.store (out + i) 0)

def terminalReadline (out : Nat) (max : Int) (outputWhileTyping : Bool) (polled : List UInt8) (s : Typing) :
    Option Int × Typing := readlineFrom out max outputWhileTyping (getkeys polled) 0 s

/-! ### Lines -/

/-- A line as `edit` makes it of the keys before a carriage return, or until it has `limit`
characters; `none` while it is not complete. -/
def lineWith (edit : List UInt8 → UInt8 → List UInt8) (limit : Nat) : List UInt8 → List UInt8 → Option (List UInt8)
  | line, [] => if line.length < limit then none else some line
  | line, key :: keys =>
    if line.length < limit then
      if key = carriageReturn then some line else lineWith edit limit (edit line key) keys
    else some line

/-- The line editor. -/
def editLine (line : List UInt8) (key : UInt8) : List UInt8 := if key = backspace then line.dropLast else line ++ [key]

/-- What the loop does to the line it has stored. -/
def storeKey (line : List UInt8) (key : UInt8) : List UInt8 :=
  if key = backspace ∧ line ≠ [] then line.dropLast else line ++ [key]

/-- The length of the line that is edited, and whether an odd number of backspaces found it
empty. -/
structure Typed where
  length : Nat
  stray : Bool

def Typed.key (t : Typed) (key : UInt8) : Typed :=
  if key = backspace then
    if t.length = 0 then {t with stray := !t.stray} else {t with length := t.length - 1}
  else {t with length := t.length + 1}

/-- Whenever the line is complete, or would be with one character more in front, the number of
backspaces that found it empty is even. -/
def backspacesEven (limit : Nat) (t : Typed) : List UInt8 → Bool
  | [] => t.length + t.stray.toNat < limit || !t.stray
  | key :: keys =>
    if t.length + t.stray.toNat < limit then
      if key = carriageReturn then !t.stray else backspacesEven limit (t.key key) keys
    else !t.stray

/-- The call waits, or has returned the length of the line, which is stored with its zero. -/
def Returns (out : Nat) (run : Option Int × Typing) : Option (List UInt8) → Prop
  | none => run.1 = none
  | some line => run.1 = some (line.length : Int) ∧ Stored run.2.mem out (line ++ [0])

/-- The call has done what the line editor does: it returns when the line is complete, with that
line, and nothing outside the buffer was written. -/
def Edits (out : Nat) (max : Int) (outputWhileTyping : Bool) (polled : List UInt8) (s : Typing) : Prop :=
  let run := terminalReadline out max outputWhileTyping polled s
  Returns out run (lineWith editLine (max - 1).toNat [] (getkeys polled)) ∧ SameOutside ⟨out, max.toNat⟩ s.mem run.2.mem

variable {out limit : Nat} {max : Int} {outputWhileTyping : Bool} {line keys : List UInt8} {s : Typing} {mem : Memory}

/-! ### What is stored -/

/-- The line is stored, with room for a zero, and nothing else was written. -/
structure Typing.Holds (s : Typing) (mem : Memory) (out limit : Nat) (line : List UInt8) : Prop where
  stored : Stored s.mem out line
  fits : line.length ≤ limit
  frame : SameOutside ⟨out, limit + 1⟩ mem s.mem

theorem Typing.Holds.show (h : s.Holds mem out limit line) (outputWhileTyping : Bool) (key : UInt8) :
    (if outputWhileTyping then {s with shown := s.shown ++ [key]} else s).Holds mem out limit line := by
  cases outputWhileTyping
  · exact h
  · exact ⟨h.stored, h.fits, h.frame⟩

theorem frame_store (h : SameOutside ⟨out, limit + 1⟩ mem s.mem) {i : Nat} (hi : i ≤ limit) (c : UInt8) :
    SameOutside ⟨out, limit + 1⟩ mem (s.store (out + (i : Int)) c).mem := by
  refine h.trans fun b hb => ?_
  rw [Extent.holds_mk] at hb
  exact Function.update_of_ne (by omega) ..

/-- A character stored behind the line. -/
theorem stored_put (h : Stored s.mem out line) (c : UInt8) :
    Stored (s.store (out + (line.length : Int)) c).mem out (line ++ [c]) := by
  have haddress : ((out : Int) + (line.length : Int)).toNat = out + line.length := by omega
  rw [stored_append, stored_cons]
  refine ⟨fun i hi => ?_, ?_, fun i hi => absurd hi (Nat.not_lt_zero i)⟩
  · show Function.update s.mem _ c (out + i) = _
    rw [haddress, Function.update_of_ne (by omega), h i hi]
  · show Function.update s.mem _ c (out + line.length) = _
    rw [haddress, Function.update_self]

/-- The line ends where the loop is left. -/
theorem Typing.Holds.finish (h : s.Holds mem out limit line) :
    Returns out (some (line.length : Int), s.store (out + (line.length : Int)) 0) (some line) ∧
      SameOutside ⟨out, limit + 1⟩ mem (s.store (out + (line.length : Int)) 0).mem :=
  ⟨⟨rfl, stored_put h.stored 0⟩, frame_store h.frame h.fits 0⟩

theorem Typing.Holds.put (h : s.Holds mem out limit line) (hlt : line.length < limit) (c : UInt8) :
    (s.store (out + (line.length : Int)) c).Holds mem out limit (line ++ [c]) := by
  refine ⟨stored_put h.stored c, ?_, frame_store h.frame h.fits c⟩
  rw [List.length_append, List.length_singleton]
  exact hlt

theorem Typing.Holds.erase (h : s.Holds mem out limit line) (hne : line ≠ []) :
    (s.store (out + ((line.length : Int) - 1)) 0).Holds mem out limit line.dropLast := by
  have hpos : 0 < line.length := List.length_pos_iff.mpr hne
  have hfits := h.fits
  have hlast : (line.length : Int) - 1 = ((line.length - 1 : Nat) : Int) := by omega
  rw [hlast]
  refine ⟨fun i hi => ?_, ?_, frame_store h.frame (by omega) 0⟩
  · rw [List.length_dropLast] at hi
    show Function.update s.mem _ 0 (out + i) = _
    rw [Function.update_of_ne (by omega), h.stored i (by omega), List.getD_eq_getElem?_getD, List.getD_eq_getElem?_getD,
      List.getElem?_dropLast, if_pos hi]
  · rw [List.length_dropLast]
    omega

/-- The result of the loop, by the line it stores. -/
theorem readlineFrom_spec (hmax : max = limit + 1) (h : s.Holds mem out limit line) :
    Returns out (readlineFrom out max outputWhileTyping keys line.length s) (lineWith storeKey limit line keys) ∧
      SameOutside ⟨out, limit + 1⟩ mem (readlineFrom out max outputWhileTyping keys line.length s).2.mem := by
  induction keys generalizing line s with
  | nil =>
    unfold readlineFrom lineWith
    by_cases hlt : line.length < limit
    · rw [if_pos hlt, if_pos (by omega)]
      exact ⟨rfl, h.frame⟩
    · rw [if_neg hlt, if_neg (by omega)]
      exact h.finish
  | cons key keys ih =>
    unfold readlineFrom lineWith
    by_cases hlt : line.length < limit
    · rw [if_pos hlt, if_pos (show (line.length : Int) < max - 1 by omega)]
      by_cases hreturn : key = carriageReturn
      · rw [if_pos hreturn, if_pos hreturn]
        exact h.finish
      rw [if_neg hreturn, if_neg hreturn]
      have hshown := h.show outputWhileTyping key
      generalize (if outputWhileTyping then {s with shown := s.shown ++ [key]} else s) = s' at hshown
      simp only
      unfold storeKey
      by_cases herase : key = backspace ∧ line ≠ []
      · have hpos : 0 < line.length := List.length_pos_iff.mpr herase.2
        have hindex : (line.length : Int) - 2 + 1 = (line.dropLast.length : Int) := by
          rw [List.length_dropLast]
          omega
        rw [if_pos herase, if_pos ⟨herase.1, by omega⟩, hindex]
        exact ih (hshown.erase herase.2)
      · have hnot : ¬ (key = backspace ∧ (line.length : Int) ≥ 1) := fun hcode =>
          herase ⟨hcode.1, List.ne_nil_of_length_pos (by omega)⟩
        have hindex : (line.length : Int) + 1 = ((line ++ [key]).length : Int) := by
          rw [List.length_append, List.length_singleton]
          rfl
        rw [if_neg herase, if_neg hnot, hindex]
        exact ih (hshown.put hlt key)
    · rw [if_neg hlt, if_neg (by omega)]
      exact h.finish

/-! ### The stray backspace -/

/-- The line stored where the line edited is `line`. -/
def strayLine (stray : Bool) (line : List UInt8) : List UInt8 := if stray then backspace :: line else line

/-- The editor never stores a backspace. -/
theorem editLine_no_backspace (hline : backspace ∉ line) (key : UInt8) : backspace ∉ editLine line key := by
  intro hmem
  unfold editLine at hmem
  split at hmem
  · exact hline (List.dropLast_subset _ hmem)
  · rename_i hkey
    rcases List.mem_append.mp hmem with hmem | hmem
    · exact hline hmem
    · exact hkey (List.mem_singleton.mp hmem).symm

theorem lineWith_no_backspace {result : List UInt8} (h : lineWith editLine limit line keys = some result)
    (hline : backspace ∉ line) : backspace ∉ result := by
  induction keys generalizing line with
  | nil =>
    unfold lineWith at h
    split at h
    · cases h
    · exact Option.some_inj.mp h ▸ hline
  | cons key keys ih =>
    unfold lineWith at h
    split at h
    · split at h
      · exact Option.some_inj.mp h ▸ hline
      · exact ih h (editLine_no_backspace hline key)
    · exact Option.some_inj.mp h ▸ hline

theorem length_strayLine (stray : Bool) (line : List UInt8) : (strayLine stray line).length = line.length + stray.toNat := by
  cases stray <;> rfl

/-- A line with a stray backspace is none that was edited. -/
theorem strayLine_eq_iff {stray : Bool} (hline : backspace ∉ line)
    (hcomplete : stray = false → lineWith editLine limit line keys = some line) :
    some (strayLine stray line) = lineWith editLine limit line keys ↔ (!stray) = true := by
  cases stray with
  | false => exact ⟨fun _ => rfl, fun _ => (hcomplete rfl).symm⟩
  | true =>
    refine ⟨fun h => ?_, fun h => absurd h (by decide)⟩
    exact absurd (List.mem_cons_self ..) (lineWith_no_backspace h.symm hline)

/-- One key, stored and edited. -/
theorem storeKey_strayLine (stray : Bool) (line : List UInt8) (key : UInt8) : storeKey (strayLine stray line) key =
    strayLine ((Typed.mk line.length stray).key key).stray (editLine line key) ∧
      ((Typed.mk line.length stray).key key).length = (editLine line key).length := by
  unfold storeKey editLine Typed.key strayLine
  by_cases hkey : key = backspace
  · cases line with
    | nil => cases stray <;> simp [hkey]
    | cons c line => cases stray <;> simp [hkey]
  · cases stray <;> simp [hkey]

theorem Typed.key_le (t : Typed) (key : UInt8) :
    (t.key key).length + (t.key key).stray.toNat ≤ t.length + t.stray.toNat + 1 := by
  obtain ⟨length, stray⟩ := t
  unfold Typed.key
  by_cases hkey : key = backspace
  · rw [if_pos hkey]
    by_cases hempty : length = 0
    · rw [if_pos hempty]
      cases stray
      · exact Nat.le_refl _
      · exact Nat.le_add_right length 2
    · rw [if_neg hempty]
      simp only
      omega
  · rw [if_neg hkey]
    simp only
    omega

/-- The line stored is the line edited just where there is no stray backspace when it is complete. -/
theorem lineWith_iff (stray : Bool) (hline : backspace ∉ line) (hfits : line.length + stray.toNat ≤ limit) :
    lineWith storeKey limit (strayLine stray line) keys = lineWith editLine limit line keys ↔
      backspacesEven limit ⟨line.length, stray⟩ keys = true := by
  induction keys generalizing line stray with
  | nil =>
    unfold backspacesEven
    rw [lineWith, length_strayLine]
    by_cases hlt : line.length + stray.toNat < limit
    · rw [if_pos hlt, lineWith, if_pos (by omega), decide_eq_true hlt]
      exact ⟨fun _ => rfl, fun _ => rfl⟩
    · rw [if_neg hlt, decide_eq_false hlt, Bool.false_or]
      refine strayLine_eq_iff hline fun hstray => ?_
      rw [lineWith, if_neg (by rw [hstray] at hlt; exact hlt)]
  | cons key keys ih =>
    unfold backspacesEven
    rw [lineWith, length_strayLine]
    by_cases hlt : line.length + stray.toNat < limit
    · rw [if_pos hlt, if_pos hlt]
      by_cases hreturn : key = carriageReturn
      · rw [if_pos hreturn, if_pos hreturn]
        refine strayLine_eq_iff hline fun _ => ?_
        rw [lineWith, if_pos (by omega), if_pos hreturn]
      · obtain ⟨hstored, hlength⟩ := storeKey_strayLine stray line key
        rw [if_neg hreturn, if_neg hreturn, lineWith, if_pos (by omega), if_neg hreturn, hstored]
        have hnext := ih ((Typed.mk line.length stray).key key).stray (editLine_no_backspace hline key)
        rw [← hlength] at hnext
        exact hnext (Nat.le_trans (Typed.key_le _ key) hlt)
    · rw [if_neg hlt, if_neg hlt]
      refine strayLine_eq_iff hline fun hstray => ?_
      rw [lineWith, if_neg (by rw [hstray] at hlt; exact hlt)]

/-! ### The call -/

theorem stored_length_unique {a : Nat} {xs ys : List UInt8} (h : Stored mem a xs) (h' : Stored mem a ys)
    (hlen : xs.length = ys.length) : xs = ys := by
  apply List.ext_getElem hlen
  intro i hi hi'
  have heq := (h i hi).symm.trans (h' i hi')
  rwa [List.getD_eq_getElem _ _ hi, List.getD_eq_getElem _ _ hi'] at heq

/-- A call returns one line. -/
theorem Returns.unique {run : Option Int × Typing} {a b : Option (List UInt8)} (h : Returns out run a)
    (h' : Returns out run b) : a = b := by
  cases a with
  | none =>
    cases b with
    | none => rfl
    | some line => exact absurd ((show run.1 = none from h).symm.trans h'.1) (by simp)
  | some line =>
    cases b with
    | none => exact absurd (h.1.symm.trans (show run.1 = none from h')) (by simp)
    | some line' =>
      have hlen : line.length = line'.length := Int.ofNat.inj (Option.some.inj (h.1.symm.trans h'.1))
      have heq := stored_length_unique h.2 h'.2 (by simp [hlen])
      rw [List.append_cancel_right heq]

/-- **When `terminal_readline` edits a line.** For every size of the buffer and whatever is typed, the
call returns and stores the line that a line editor makes of the keys, and waits while the line is
not complete, exactly where the number of backspaces typed at the beginning of the line is even
when the line is complete or one character short of filling the buffer. -/
theorem terminalReadline_edits_iff (hmax : 1 ≤ max) (polled : List UInt8) (s : Typing) :
    Edits out max outputWhileTyping polled s ↔
      backspacesEven (max - 1).toNat ⟨0, false⟩ (getkeys polled) = true := by
  have hlimit : max = ((max - 1).toNat : Nat) + 1 := by omega
  have hstart : s.Holds s.mem out (max - 1).toNat [] :=
    ⟨fun i hi => absurd hi (Nat.not_lt_zero i), Nat.zero_le _, SameOutside.refl _ _⟩
  have hspec : Returns out (terminalReadline out max outputWhileTyping polled s) _ ∧ _ :=
    readlineFrom_spec hlimit hstart
  obtain ⟨hreturns, hframe⟩ := hspec
  have hsize : (max - 1).toNat + 1 = max.toNat := by omega
  rw [hsize] at hframe
  refine Iff.trans ?_ (@lineWith_iff (max - 1).toNat [] (getkeys polled) false List.not_mem_nil (Nat.zero_le _))
  constructor
  · intro h
    exact hreturns.unique h.1
  · intro h
    exact ⟨h ▸ hreturns, hframe⟩

/-- Two stray backspaces cancel out. -/
theorem terminalReadline_even : Edits 0x400000 80 true [8, 8, 0, 0x41, 13] ⟨fun _ => 0, []⟩ ↔
    backspacesEven ((80 : Int) - 1).toNat ⟨0, false⟩ (getkeys [8, 8, 0, 0x41, 13]) = true :=
  terminalReadline_edits_iff (by decide) _ _

/-- A backspace at the beginning is stored. -/
theorem terminalReadline_stores_backspace : ¬ ∀ (out : Nat) (max : Int) (outputWhileTyping : Bool)
    (polled : List UInt8) (s : Typing), 1 ≤ max → Edits out max outputWhileTyping polled s := by
  intro h
  have hedits := (h 0x400000 80 false [8, 13] ⟨fun _ => 0, []⟩ (by decide)).1
  have hline : lineWith editLine ((80 : Int) - 1).toNat [] (getkeys [8, 13]) = some [] := by decide
  rw [hline] at hedits
  exact absurd hedits.1 (by decide)

end BasicOS

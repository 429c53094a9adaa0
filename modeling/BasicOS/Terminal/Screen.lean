import Mathlib.Data.List.Basic
import Mathlib.Tactic.Ring
import BasicOS.Word

/-! The text terminal, as `kernel.c` keeps it.

A cursor moves over a screen of 20 rows of 80 columns. A line that is full is left at column
80 and wraps when the next character is put; backspace, carriage return, tab and line feed
move the cursor in their own ways. `terminalRun` puts one character after another, and
`video` lists the stores to the video memory, so that a run shows every cell it wrote.

Nothing scrolls: `terminal_clear` starts again at the top, and only `kernel_panic` looks
whether the cursor left the last row. A glyph put after 20 line feeds goes to the first cell
behind the screen (`terminal_writes_below_screen`). The columns are always right, and a run
stays on the screen exactly when each character that is stored finds the cursor in a row of
the screen (`terminal_onscreen_iff`). -/
namespace BasicOS

abbrev textModeCharactersPerLine : Nat := 80

abbrev textModeVgaWidth : Nat := 80

abbrev textModeVgaHeight : Nat := 20

abbrev textModeColorsBlack : UInt8 := 0

abbrev textModeColorsWhite : UInt8 := 15

abbrev textModeBitMaskFgColor : UInt8 := 0x0F

/-- The cursor, the colours, and the words stored to the video memory with the index of
their cell, the last one first. -/
structure Terminal where
  terminalX : Nat
  terminalY : Nat
  terminalFgColor : UInt8
  terminalBgColor : UInt8
  video : List (Nat × UInt16)

/-- The cell behind a pointer `TEXT_MODE_COLOR_BASE_ADDR + offset`: a cell has two bytes and
an address 32 bits. -/
def videoCell (offset : Nat) : Nat := offset % 2 ^ 31

/-- A glyph with its colours. `char` is signed: it is extended before it is combined. -/
def vgaMakeChar (ch color bgColor : UInt8) : UInt16 :=
  ((bgColor.toUInt16 <<< 4 ||| (color &&& textModeBitMaskFgColor).toUInt16) <<< 8) |||
    ch.toInt8.toInt16.toUInt16

/-- Both coordinates are passed as `unsigned char`. -/
def vgaGetOffset (x y : Nat) : Nat := y % 256 * textModeCharactersPerLine + x % 256

def terminalPutsRaw (ch color bgColor : UInt8) (offset : Nat) (t : Terminal) : Terminal :=
  {t with video := (videoCell offset, vgaMakeChar ch color bgColor) :: t.video}

def terminalClear (t : Terminal) : Terminal :=
  let t := (List.range textModeVgaHeight).foldl (fun t y =>
    (List.range textModeVgaWidth).foldl (fun t x =>
      terminalPutsRaw 32 textModeColorsBlack textModeColorsBlack (y * textModeCharactersPerLine + x) t) t) t
  {t with terminalX := 0, terminalY := 0}

def terminalInit (t : Terminal) : Terminal :=
  {terminalClear t with terminalFgColor := textModeColorsWhite, terminalBgColor := textModeColorsBlack}

def terminalBackspace (t : Terminal) : Terminal :=
  if t.terminalX = 0 ∧ t.terminalY = 0 then t
  else
    let t :=
      if t.terminalX = 0 then
        let t := {t with terminalX := textModeCharactersPerLine, terminalY := t.terminalY - 1}
        terminalPutsRaw 32 textModeColorsBlack textModeColorsBlack (vgaGetOffset t.terminalX t.terminalY) t
      else t
    let t := {t with terminalX := t.terminalX - 1}
    terminalPutsRaw 32 textModeColorsBlack textModeColorsBlack (vgaGetOffset t.terminalX t.terminalY) t

/-- A full line ends when the next character comes. -/
def Terminal.wrapped (t : Terminal) : Terminal :=
  if textModeCharactersPerLine ≤ t.terminalX then {t with terminalX := 0, terminalY := u32 (t.terminalY + 1)}
  else t

def terminalPuts (ch : UInt8) (t : Terminal) : Terminal :=
  let t := t.wrapped
  if ch = 10 then {t with terminalX := 0, terminalY := u32 (t.terminalY + 1)}
  else if ch = 8 then terminalBackspace t
  else if ch = 13 then {t with terminalX := 0}
  else if ch = 9 then {t with terminalX := u32 (t.terminalX + 4) &&& 0xFFFFFFFC}
  else
    {t with
      video := (videoCell (u32 (t.terminalY * textModeCharactersPerLine) + t.terminalX),
        vgaMakeChar ch t.terminalFgColor t.terminalBgColor) :: t.video
      terminalX := u32 (t.terminalX + 1)}

/-- Characters put one after another. -/
def terminalRun (t : Terminal) (chars : List UInt8) : Terminal :=
  chars.foldl (fun t ch => terminalPuts ch t) t

/-- Every cell stored to so far is one of the screen's. -/
def Terminal.OnScreen (t : Terminal) : Prop :=
  ∀ store ∈ t.video, store.1 < textModeCharactersPerLine * textModeVgaHeight

/-- After every character the column is at most 80, and every cell written is on the screen. -/
def StaysOnScreen (t : Terminal) (chars : List UInt8) : Prop :=
  ∀ done, done <+: chars →
    (terminalRun t done).terminalX ≤ textModeCharactersPerLine ∧ (terminalRun t done).OnScreen

/-! ### When a character is stored on the screen -/

/-- Where the character is put, the cursor is in a row of the screen: a glyph finds its row
in a 32-bit address, a backspace in a byte, and one in the first column goes a row up. The
characters that only move the cursor are shown anywhere. -/
def Terminal.Shows (t : Terminal) (ch : UInt8) : Prop :=
  if ch = 10 ∨ ch = 13 ∨ ch = 9 then True
  else if ch = 8 then
    t.wrapped.terminalY % 256 < textModeVgaHeight ∧
      (t.wrapped.terminalX = 0 → t.wrapped.terminalY ≠ 0 → t.wrapped.terminalY % 256 ≠ 0)
  else
    videoCell (t.wrapped.terminalY * textModeCharactersPerLine + t.wrapped.terminalX) <
      textModeCharactersPerLine * textModeVgaHeight

/-- Every character finds the cursor where it is shown. -/
def ShowsAll (t : Terminal) : List UInt8 → Prop
  | [] => True
  | ch :: chars => t.Shows ch ∧ ShowsAll (terminalPuts ch t) chars

variable {t : Terminal} {ch : UInt8} {chars : List UInt8}

/-! ### The columns -/

theorem wrapped_terminalX_lt (t : Terminal) : t.wrapped.terminalX < textModeCharactersPerLine := by
  unfold Terminal.wrapped
  split
  · exact Nat.zero_lt_succ _
  · omega

@[simp] theorem wrapped_video (t : Terminal) : t.wrapped.video = t.video := by
  unfold Terminal.wrapped
  split <;> rfl

/-- The mask of a tab rounds down to four columns. -/
theorem and_tabMask {n : Nat} (h : n < 2 ^ 7) : n &&& 0xFFFFFFFC = n / 4 * 4 := by
  have hmask : (0xFFFFFFFC : Nat) = (2 ^ 30 - 1) <<< 2 := by decide
  have hround : n / 4 * 4 = (n >>> 2) <<< 2 := by
    rw [Nat.shiftLeft_eq, Nat.shiftRight_eq_div_pow]
  rw [hround, hmask]
  apply Nat.eq_of_testBit_eq
  intro i
  rw [Nat.testBit_and, Nat.testBit_shiftLeft, Nat.testBit_shiftLeft, Nat.testBit_two_pow_sub_one,
    Nat.testBit_shiftRight]
  by_cases hi : 2 ≤ i
  · rw [show 2 + (i - 2) = i by omega]
    by_cases hi7 : i < 32
    · simp [hi, show i - 2 < 30 by omega]
    · rw [Nat.testBit_lt_two_pow (Nat.lt_of_lt_of_le h (Nat.pow_le_pow_right (by decide) (by omega)))]
      simp
  · simp [hi]

theorem terminalBackspace_terminalX (h : t.terminalX < textModeCharactersPerLine) :
    (terminalBackspace t).terminalX ≤ textModeCharactersPerLine := by
  simp only [terminalBackspace, terminalPutsRaw, textModeCharactersPerLine] at h ⊢
  split
  · exact Nat.le_of_lt h
  split
  · show 80 - 1 ≤ 80
    omega
  · show t.terminalX - 1 ≤ 80
    omega

/-- Whatever the column was, it is at most 80 after a character. -/
theorem terminalPuts_terminalX (ch : UInt8) (t : Terminal) :
    (terminalPuts ch t).terminalX ≤ textModeCharactersPerLine := by
  have hx := wrapped_terminalX_lt t
  simp only [terminalPuts, textModeCharactersPerLine] at hx ⊢
  split
  · exact Nat.zero_le _
  split
  · exact terminalBackspace_terminalX hx
  split
  · exact Nat.zero_le _
  split
  · show u32 (t.wrapped.terminalX + 4) &&& 0xFFFFFFFC ≤ 80
    rw [u32_of_lt (by omega), and_tabMask (by omega)]
    omega
  · show u32 (t.wrapped.terminalX + 1) ≤ 80
    rw [u32_of_lt (by omega)]
    omega

/-! ### The cells -/

theorem onScreen_congr {s : Terminal} (h : t.video = s.video) : t.OnScreen ↔ s.OnScreen := by
  unfold Terminal.OnScreen
  rw [h]

/-- Where the cursor is does not matter for the cells. -/
theorem onScreen_move (t : Terminal) (x y : Nat) (fg bg : UInt8) :
    (Terminal.mk x y fg bg t.video).OnScreen ↔ t.OnScreen :=
  onScreen_congr rfl

theorem onScreen_cons {s : Terminal} {store : Nat × UInt16} (h : t.video = store :: s.video) :
    t.OnScreen ↔ store.1 < textModeCharactersPerLine * textModeVgaHeight ∧ s.OnScreen := by
  unfold Terminal.OnScreen
  rw [h, List.forall_mem_cons]

theorem videoCell_vgaGetOffset (x y : Nat) : videoCell (vgaGetOffset x y) = y % 256 * 80 + x % 256 := by
  unfold videoCell vgaGetOffset textModeCharactersPerLine
  omega

/-- A backspace in the first column stores to the cell behind the row above and to its
last, any other to the cell before the cursor. -/
theorem terminalBackspace_onScreen (hx : t.terminalX < textModeCharactersPerLine) :
    (terminalBackspace t).OnScreen ↔
      (t.terminalY % 256 < textModeVgaHeight ∧
        (t.terminalX = 0 → t.terminalY ≠ 0 → t.terminalY % 256 ≠ 0)) ∧ t.OnScreen := by
  simp only [textModeCharactersPerLine, textModeVgaHeight] at hx ⊢
  unfold terminalBackspace
  by_cases hhome : t.terminalX = 0 ∧ t.terminalY = 0
  · rw [if_pos hhome, hhome.1, hhome.2]
    simp
  rw [if_neg hhome]
  by_cases hzero : t.terminalX = 0
  · have hrow : t.terminalY ≠ 0 := fun h => hhome ⟨hzero, h⟩
    simp only [if_pos hzero]
    rw [onScreen_cons rfl, onScreen_cons (s := {t with terminalX := 80, terminalY := t.terminalY - 1}) rfl,
      onScreen_congr (t := {t with terminalX := 80, terminalY := t.terminalY - 1}) (s := t) rfl]
    simp only [videoCell_vgaGetOffset, terminalPutsRaw, textModeCharactersPerLine, textModeVgaHeight]
    rw [← and_assoc]
    refine and_congr_left' ?_
    omega
  · simp only [if_neg hzero]
    rw [onScreen_cons (s := t) rfl]
    simp only [videoCell_vgaGetOffset, textModeCharactersPerLine, textModeVgaHeight]
    refine and_congr_left' ?_
    omega

/-- **One character.** What it stores is on the screen exactly when the cursor is in a row
of the screen for it. -/
theorem terminalPuts_onScreen (ch : UInt8) (t : Terminal) :
    (terminalPuts ch t).OnScreen ↔ t.Shows ch ∧ t.OnScreen := by
  have hx := wrapped_terminalX_lt t
  unfold Terminal.Shows terminalPuts
  by_cases hfeed : ch = 10
  · simp only [hfeed, true_or, if_true, true_and]
    exact onScreen_congr (wrapped_video t)
  by_cases hback : ch = 8
  · subst hback
    rw [if_neg (by decide), if_pos rfl, if_neg (by decide), if_pos rfl, terminalBackspace_onScreen hx,
      onScreen_congr (wrapped_video t)]
  by_cases hreturn : ch = 13
  · subst hreturn
    simp only [or_true, true_or, if_true, true_and]
    exact onScreen_congr (wrapped_video t)
  by_cases htab : ch = 9
  · subst htab
    simp only [or_true, if_true, true_and]
    exact onScreen_congr (wrapped_video t)
  · rw [if_neg hfeed, if_neg hback, if_neg hreturn, if_neg htab, if_neg (by simp [hfeed, hreturn, htab]),
      if_neg hback, onScreen_cons (s := t.wrapped) rfl, onScreen_congr (wrapped_video t)]
    refine and_congr_left' ?_
    simp only [videoCell, u32, textModeCharactersPerLine, textModeVgaHeight]
    omega

/-! ### Runs -/

theorem terminalRun_onScreen (chars : List UInt8) (t : Terminal) :
    (terminalRun t chars).OnScreen ↔ ShowsAll t chars ∧ t.OnScreen := by
  induction chars generalizing t with
  | nil => exact (true_and _).symm ▸ Iff.rfl
  | cons ch chars ih =>
    show (terminalRun (terminalPuts ch t) chars).OnScreen ↔ _
    rw [ih, terminalPuts_onScreen, ShowsAll]
    tauto

theorem terminalRun_terminalX (h : t.terminalX ≤ textModeCharactersPerLine) (chars : List UInt8) :
    (terminalRun t chars).terminalX ≤ textModeCharactersPerLine := by
  induction chars generalizing t with
  | nil => exact h
  | cons ch chars ih => exact ih (terminalPuts_terminalX ch t)

theorem ShowsAll.initial {done : List UInt8} (h : ShowsAll t chars) (hdone : done <+: chars) :
    ShowsAll t done := by
  induction done generalizing t chars with
  | nil => exact trivial
  | cons ch done ih =>
    obtain ⟨rest, rfl⟩ := hdone
    exact ⟨h.1, ih h.2 ⟨rest, rfl⟩⟩

/-- `terminal_clear` writes the screen and nothing else. -/
theorem terminalClear_onScreen (h : t.OnScreen) : (terminalClear t).OnScreen := by
  have hrow : ∀ (y : Nat) (t : Terminal), y < 20 → t.OnScreen →
      ((List.range textModeVgaWidth).foldl (fun t x => terminalPutsRaw 32 textModeColorsBlack textModeColorsBlack
        (y * textModeCharactersPerLine + x) t) t).OnScreen := by
    intro y t hy ht
    refine List.foldlRecOn _ _ ht fun t ht x hx => ?_
    have hx : x < 80 := List.mem_range.mp hx
    refine (onScreen_cons (s := t) rfl).mpr ⟨?_, ht⟩
    simp only [videoCell, textModeCharactersPerLine, textModeVgaHeight]
    rw [Nat.mod_eq_of_lt (by omega)]
    omega
  unfold terminalClear
  rw [onScreen_move]
  refine List.foldlRecOn _ _ h fun t ht y hy => ?_
  exact hrow y t (List.mem_range.mp hy) ht

/-- **The terminal stays on the screen** after `terminal_init` exactly when every character
that is stored finds the cursor in a row of the screen. -/
theorem terminal_onscreen_iff (t : Terminal) (chars : List UInt8) :
    StaysOnScreen (terminalInit {t with video := []}) chars ↔
      ShowsAll (terminalInit {t with video := []}) chars := by
  have hstart : (terminalInit {t with video := []}).OnScreen := by
    rw [terminalInit, onScreen_move]
    exact terminalClear_onScreen fun _ h => (List.not_mem_nil h).elim
  constructor
  · intro h
    exact ((terminalRun_onScreen chars _).mp (h chars (List.prefix_refl _)).2).1
  · intro h done hdone
    exact ⟨terminalRun_terminalX (Nat.zero_le _) done,
      (terminalRun_onScreen done _).mpr ⟨h.initial hdone, hstart⟩⟩

/-- **Nothing scrolls.** A glyph after 20 line feeds goes to the cell behind the last row. -/
theorem terminal_writes_below_screen :
    ¬ StaysOnScreen (terminalInit ⟨0, 0, 0, 0, []⟩) (List.replicate 20 10 ++ [65]) := by
  intro h
  have hcell := (h _ (List.prefix_refl _)).2 (1600, vgaMakeChar 65 15 0) (List.mem_cons_self ..)
  exact absurd hcell (by decide)

end BasicOS

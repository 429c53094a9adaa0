import BasicOS.Terminal.Erase

/-! The terminal as a sheet of cells.

`kernel.c` keeps a column and a row, and leaves a full row at column 80 until the next character comes. A reader of
the screen sees neither: the cells are numbered one after the other, and the next glyph goes to a place among them.
`Sheet.put` says what each character does to that place and to the cells. As long as the place stays on the screen, a
run of the terminal is a run of the sheet (`terminalRun_sheet`), with the two oddities of the code in it: a line feed
behind a full row leaves an empty row, and a backspace at the beginning of a row blanks two cells. -/
namespace BasicOS

/-! ### The sheet -/

/-- The place of the next glyph, and what is in the cells. -/
structure Sheet where
  position : Nat
  cells : Nat → UInt16

/-- Where a character leads from a place. -/
def advance (position : Nat) (ch : UInt8) : Nat :=
  if ch = 10 then (position / textModeCharactersPerLine + 1) * textModeCharactersPerLine
  else if ch = 8 then position - 1
  else if ch = 13 then position / textModeCharactersPerLine * textModeCharactersPerLine
  else if ch = 9 then
    position / textModeCharactersPerLine * textModeCharactersPerLine + (position % textModeCharactersPerLine + 4) / 4 * 4
  else position + 1

/-- What a character puts into the cells, as it is printed in these colours. -/
def imprint (color bgColor : UInt8) (s : Sheet) (ch : UInt8) : Nat → UInt16 :=
  if ch = 10 ∨ ch = 13 ∨ ch = 9 then s.cells
  else if ch = 8 then fun c =>
    if s.position ≠ 0 ∧ (c + 1 = s.position ∨ c = s.position ∧ s.position % textModeCharactersPerLine = 0) then blankCell
    else s.cells c
  else Function.update s.cells s.position (vgaMakeChar ch color bgColor)

def Sheet.put (color bgColor : UInt8) (s : Sheet) (ch : UInt8) : Sheet :=
  ⟨advance s.position ch, imprint color bgColor s ch⟩

/-- Characters put one after another. -/
def Sheet.type (color bgColor : UInt8) (s : Sheet) (chars : List UInt8) : Sheet := chars.foldl (Sheet.put color bgColor) s

/-- The place stays on the screen, or right behind it, with every character. -/
def Fits (position : Nat) : List UInt8 → Prop
  | [] => True
  | ch :: chars => advance position ch ≤ textModeCharactersPerLine * textModeVgaHeight ∧ Fits (advance position ch) chars

/-- The screen as a reader sees it. -/
def Terminal.sheet (screen : Nat → UInt16) (t : Terminal) : Sheet := ⟨t.linear, t.cell screen⟩

/-! ### One character -/

variable {t : Terminal} (screen : Nat → UInt16)

/-- A full row is left for the next one, which is the same place. -/
theorem Terminal.Placed.wrapped (h : t.Placed) : t.wrapped.terminalX < textModeCharactersPerLine ∧
    t.wrapped.terminalY * textModeCharactersPerLine + t.wrapped.terminalX = t.linear ∧
    t.wrapped.terminalFgColor = t.terminalFgColor ∧ t.wrapped.terminalBgColor = t.terminalBgColor := by
  obtain ⟨hx, hrow⟩ := h
  unfold Terminal.linear at hrow ⊢
  unfold Terminal.wrapped
  simp only [textModeCharactersPerLine, textModeVgaHeight] at *
  split
  · refine ⟨Nat.zero_lt_succ 79, ?_, rfl, rfl⟩
    show u32 (t.terminalY + 1) * 80 + 0 = _
    rw [u32_of_lt (by omega)]
    omega
  · exact ⟨by omega, by omega, rfl, rfl⟩

theorem advance_feed (position : Nat) :
    advance position 10 = (position / textModeCharactersPerLine + 1) * textModeCharactersPerLine := rfl

theorem advance_return (position : Nat) :
    advance position 13 = position / textModeCharactersPerLine * textModeCharactersPerLine := rfl

theorem advance_tab (position : Nat) : advance position 9 =
    position / textModeCharactersPerLine * textModeCharactersPerLine + (position % textModeCharactersPerLine + 4) / 4 * 4 :=
  rfl

theorem advance_glyph {ch : UInt8} (hch : IsGlyph ch) (position : Nat) : advance position ch = position + 1 := by
  obtain ⟨hfeed, hback, hreturn, htab⟩ := hch
  unfold advance
  rw [if_neg hfeed, if_neg hback, if_neg hreturn, if_neg htab]

/-- What one character is to the reader of the screen. -/
structure PutsAs (screen : Nat → UInt16) (t : Terminal) (ch : UInt8) : Prop where
  placed : (terminalPuts ch t).Placed
  fgColor : (terminalPuts ch t).terminalFgColor = t.terminalFgColor
  bgColor : (terminalPuts ch t).terminalBgColor = t.terminalBgColor
  sheet : (terminalPuts ch t).sheet screen = (t.sheet screen).put t.terminalFgColor t.terminalBgColor ch

/-- A move of the cursor leaves the cells. -/
theorem PutsAs.move {ch : UInt8} {x y : Nat} (h : t.Placed)
    (hfit : advance t.linear ch ≤ textModeCharactersPerLine * textModeVgaHeight) (hch : ch = 10 ∨ ch = 13 ∨ ch = 9)
    (hx : x ≤ textModeCharactersPerLine) (hxy : y * textModeCharactersPerLine + x = advance t.linear ch)
    (heq : terminalPuts ch t = {t.wrapped with terminalX := x, terminalY := y}) : PutsAs screen t ch := by
  obtain ⟨_, _, hfg, hbg⟩ := h.wrapped
  have hlinear : (terminalPuts ch t).linear = advance t.linear ch := by
    rw [heq, ← hxy]
    unfold Terminal.linear
    exact congrArg (· + x) (Nat.mul_comm ..)
  refine ⟨⟨by rw [heq]; exact hx, by rw [hlinear]; exact hfit⟩, by rw [heq]; exact hfg, by rw [heq]; exact hbg, ?_⟩
  unfold Terminal.sheet Sheet.put imprint
  rw [if_pos hch, hlinear]
  refine congrArg (Sheet.mk _) (funext fun c => ?_)
  rw [heq]
  exact cell_congr (wrapped_video t) c

theorem PutsAs.glyph {ch : UInt8} (hch : IsGlyph ch) (h : t.Placed)
    (hfit : t.linear < textModeCharactersPerLine * textModeVgaHeight) : PutsAs screen t ch := by
  obtain ⟨hcolumn, hplace, hfg, hbg⟩ := h.wrapped
  obtain ⟨hplaced, hlinear, _⟩ := terminalPuts_glyph screen hch h hfit
  have hcell : videoCell (u32 (t.wrapped.terminalY * textModeCharactersPerLine) + t.wrapped.terminalX) = t.linear := by
    unfold videoCell
    simp only [textModeCharactersPerLine, textModeVgaHeight] at *
    rw [u32_of_lt (by omega), Nat.mod_eq_of_lt (by omega)]
    omega
  have hadvance := advance_glyph hch t.linear
  obtain ⟨hfeed, hback, hreturn, htab⟩ := hch
  have heq : terminalPuts ch t = {t.wrapped with
      video := (t.linear, vgaMakeChar ch t.terminalFgColor t.terminalBgColor) :: t.wrapped.video
      terminalX := u32 (t.wrapped.terminalX + 1)} := by
    unfold terminalPuts
    simp only [if_neg hfeed, if_neg hback, if_neg hreturn, if_neg htab, hcell, hfg, hbg]
  refine ⟨hplaced, by rw [heq]; exact hfg, by rw [heq]; exact hbg, ?_⟩
  unfold Terminal.sheet Sheet.put imprint
  rw [if_neg (by tauto), if_neg hback, hlinear, hadvance]
  refine congrArg (Sheet.mk _) (funext fun c => ?_)
  rw [cell_cons (s := t.wrapped) (by rw [heq]), cell_congr (wrapped_video t), Function.update_apply]

theorem terminalBackspace_colors (t : Terminal) : (terminalBackspace t).terminalFgColor = t.terminalFgColor ∧
    (terminalBackspace t).terminalBgColor = t.terminalBgColor := by
  unfold terminalBackspace
  split
  · exact ⟨rfl, rfl⟩
  · simp only
    split <;> exact ⟨rfl, rfl⟩

theorem PutsAs.backspace (h : t.Placed) : PutsAs screen t 8 := by
  obtain ⟨_, _, hfg, hbg⟩ := h.wrapped
  obtain ⟨hfg', hbg'⟩ := terminalBackspace_colors t.wrapped
  by_cases hhome : t.linear = 0
  · -- there is nothing to take back
    have hsame : terminalPuts 8 t = t := by
      unfold Terminal.linear at hhome
      simp only [textModeCharactersPerLine] at hhome
      have hwrap : t.wrapped = t := if_neg (by simp only [textModeCharactersPerLine]; omega)
      show terminalBackspace t.wrapped = t
      rw [hwrap]
      exact if_pos (by omega)
    refine ⟨hsame.symm ▸ h, hfg'.trans hfg, hbg'.trans hbg, ?_⟩
    rw [hsame]
    unfold Terminal.sheet Sheet.put imprint
    rw [if_neg (by decide), if_pos rfl, hhome]
    exact congrArg (Sheet.mk _) (funext fun c => (if_neg fun hne => hne.1 rfl).symm)
  · obtain ⟨hplaced, hlinear, hcells⟩ := terminalPuts_backspace screen h hhome
    refine ⟨hplaced, hfg'.trans hfg, hbg'.trans hbg, ?_⟩
    unfold Terminal.sheet Sheet.put imprint
    rw [if_neg (by decide), if_pos rfl, show advance t.linear 8 = t.linear - 1 from rfl, ← hlinear, Nat.add_sub_cancel, hlinear]
    refine congrArg (Sheet.mk _) (funext fun c => (hcells c).trans ?_)
    exact if_congr (by tauto) rfl rfl

/-- **One character.** The terminal does with it what the sheet does. -/
theorem terminalPuts_sheet {ch : UInt8} (h : t.Placed)
    (hfit : advance t.linear ch ≤ textModeCharactersPerLine * textModeVgaHeight) : PutsAs screen t ch := by
  obtain ⟨hcolumn, hplace, _, _⟩ := h.wrapped
  have hrow := h.row
  by_cases hfeed : ch = 10
  · subst hfeed
    have hnext : u32 (t.wrapped.terminalY + 1) = t.wrapped.terminalY + 1 := u32_of_lt (by
      simp only [textModeCharactersPerLine, textModeVgaHeight] at *
      omega)
    refine .move screen h hfit (.inl rfl) (Nat.zero_le _) (y := t.wrapped.terminalY + 1) ?_ ?_
    · rw [advance_feed]
      simp only [textModeCharactersPerLine] at *
      omega
    · rw [← hnext]
      rfl
  by_cases hreturn : ch = 13
  · subst hreturn
    refine .move screen h hfit (.inr (.inl rfl)) (Nat.zero_le _) (y := t.wrapped.terminalY) ?_ rfl
    rw [advance_return]
    simp only [textModeCharactersPerLine] at *
    omega
  by_cases htab : ch = 9
  · subst htab
    have hmask : u32 (t.wrapped.terminalX + 4) &&& 0xFFFFFFFC = (t.wrapped.terminalX + 4) / 4 * 4 := by
      simp only [textModeCharactersPerLine] at hcolumn
      rw [u32_of_lt (by omega), and_tabMask (by omega)]
    refine .move screen h hfit (.inr (.inr rfl)) (x := (t.wrapped.terminalX + 4) / 4 * 4) (y := t.wrapped.terminalY) ?_ ?_ ?_
    · simp only [textModeCharactersPerLine] at *
      omega
    · rw [advance_tab]
      simp only [textModeCharactersPerLine] at *
      omega
    · rw [← hmask]
      rfl
  by_cases hback : ch = 8
  · subst hback
    exact .backspace screen h
  have hch : IsGlyph ch := ⟨hfeed, hback, hreturn, htab⟩
  rw [advance_glyph hch] at hfit
  exact .glyph screen hch h hfit

/-! ### Texts -/

/-- **The terminal is a sheet.** As long as the place stays on the screen, what a reader sees after a text is what the
sheet makes of it. -/
theorem terminalRun_sheet (chars : List UInt8) (h : t.Placed) (hfits : Fits t.linear chars) :
    (terminalRun t chars).Placed ∧
      (terminalRun t chars).sheet screen = (t.sheet screen).type t.terminalFgColor t.terminalBgColor chars := by
  induction chars generalizing t with
  | nil => exact ⟨h, rfl⟩
  | cons ch chars ih =>
    obtain ⟨hfit, hrest⟩ := hfits
    obtain ⟨hplaced, hfg, hbg, hsheet⟩ := terminalPuts_sheet screen h hfit
    have hlinear : (terminalPuts ch t).linear = advance t.linear ch := congrArg Sheet.position hsheet
    obtain ⟨hplaced', hsheet'⟩ := ih hplaced (hlinear ▸ hrest)
    refine ⟨hplaced', ?_⟩
    rw [terminalRun_cons, hsheet', hsheet, hfg, hbg]
    rfl

/-! ### From a clear screen on -/

/-- `printc`, for a string of these characters; `print` is white on black. -/
def printc (str : List UInt8) (color bgColor : UInt8) (t : Terminal) : Terminal :=
  terminalRun {t with terminalFgColor := color, terminalBgColor := bgColor} str

/-- A text in its colours. -/
structure Text where
  chars : List UInt8
  color : UInt8
  bgColor : UInt8

/-- Texts printed one after another. -/
def printTexts (t : Terminal) (texts : List Text) : Terminal :=
  texts.foldl (fun t text => printc text.chars text.color text.bgColor t) t

def Sheet.texts (s : Sheet) (texts : List Text) : Sheet :=
  texts.foldl (fun s text => s.type text.color text.bgColor text.chars) s

/-- A clear screen, with what is behind it as it was. -/
def clearSheet (cells : Nat → UInt16) : Sheet :=
  ⟨0, fun c => if c < textModeVgaHeight * textModeCharactersPerLine then blankCell else cells c⟩

theorem type_position (color bgColor : UInt8) (s : Sheet) (chars : List UInt8) :
    (s.type color bgColor chars).position = chars.foldl advance s.position := by
  induction chars generalizing s with
  | nil => rfl
  | cons ch chars ih => exact ih (s.put color bgColor ch)

theorem fits_append {position : Nat} {chars rest : List UInt8} :
    Fits position (chars ++ rest) ↔ Fits position chars ∧ Fits (chars.foldl advance position) rest := by
  induction chars generalizing position with
  | nil => exact ⟨fun h => ⟨trivial, h⟩, And.right⟩
  | cons ch chars ih => exact (and_congr_right fun _ => ih).trans and_assoc.symm

/-- The first cells of a row are cleared. -/
theorem clearCells_cell (y n : Nat) (hy : y < textModeVgaHeight) (hn : n ≤ textModeVgaWidth) (c : Nat) :
    ((List.range n).foldl (fun t x =>
      terminalPutsRaw 32 textModeColorsBlack textModeColorsBlack (y * textModeCharactersPerLine + x) t) t).cell screen c =
      if y * textModeCharactersPerLine ≤ c ∧ c < y * textModeCharactersPerLine + n then blankCell else t.cell screen c := by
  induction n with
  | zero => exact (if_neg (by omega)).symm
  | succ n ih =>
    have hcell : videoCell (y * textModeCharactersPerLine + n) = y * textModeCharactersPerLine + n := by
      simp only [textModeCharactersPerLine, textModeVgaHeight, textModeVgaWidth] at *
      exact Nat.mod_eq_of_lt (by omega)
    rw [List.range_succ, List.foldl_append]
    refine (cell_cons rfl c).trans ?_
    rw [hcell, ih (by omega)]
    by_cases hc : c = y * textModeCharactersPerLine + n
    · rw [if_pos hc, if_pos (by omega)]
      rfl
    · rw [if_neg hc]
      exact if_congr (by omega) rfl rfl

/-- A turn of the outer loop of `terminal_clear`. -/
def clearRow (t : Terminal) (y : Nat) : Terminal :=
  (List.range textModeVgaWidth).foldl (fun t x =>
    terminalPutsRaw 32 textModeColorsBlack textModeColorsBlack (y * textModeCharactersPerLine + x) t) t

theorem clearRow_cell (t : Terminal) {y : Nat} (hy : y < textModeVgaHeight) (c : Nat) : (clearRow t y).cell screen c =
    if y * textModeCharactersPerLine ≤ c ∧ c < y * textModeCharactersPerLine + textModeVgaWidth then blankCell
    else t.cell screen c := by
  unfold clearRow
  exact clearCells_cell screen y textModeVgaWidth hy (Nat.le_refl _) c

theorem clearRows_cell {n : Nat} (hn : n ≤ textModeVgaHeight) (c : Nat) :
    ((List.range n).foldl clearRow t).cell screen c =
      if c < n * textModeCharactersPerLine then blankCell else t.cell screen c := by
  induction n with
  | zero => exact (if_neg (by omega)).symm
  | succ n ih =>
    rw [List.range_succ, List.foldl_append, List.foldl_cons, List.foldl_nil, clearRow_cell screen _ hn, ih (by omega)]
    simp only [textModeCharactersPerLine, textModeVgaWidth]
    by_cases hc : c < n * 80
    · rw [if_neg (by omega), if_pos hc, if_pos (by omega)]
    · rw [if_neg hc]
      exact if_congr (by omega) rfl rfl

/-- `terminal_init` leaves a clear screen. -/
theorem terminalInit_sheet (t : Terminal) :
    (terminalInit t).Placed ∧ (terminalInit t).sheet screen = clearSheet (t.cell screen) := by
  refine ⟨⟨Nat.zero_le _, Nat.zero_le _⟩, ?_⟩
  have hvideo : (terminalInit t).video = ((List.range textModeVgaHeight).foldl clearRow t).video := by
    unfold terminalInit terminalClear clearRow
    rfl
  unfold Terminal.sheet clearSheet
  exact congrArg (Sheet.mk 0) (funext fun c => (cell_congr hvideo c).trans (clearRows_cell screen (Nat.le_refl _) c))

/-- **Whatever is printed from the start on.** As long as it stays on the screen, the reader sees the texts typed one after
another on a clear sheet, each in its colours. -/
theorem printTexts_sheet (t : Terminal) (texts : List Text) (hfits : Fits 0 (texts.flatMap Text.chars)) :
    (printTexts (terminalInit t) texts).sheet screen = (clearSheet (t.cell screen)).texts texts := by
  obtain ⟨hplaced, hclear⟩ := terminalInit_sheet screen t
  have hlinear : (terminalInit t).linear = 0 := rfl
  rw [← hlinear] at hfits
  rw [← hclear]
  clear hlinear hclear
  generalize terminalInit t = t₁ at *
  induction texts generalizing t₁ with
  | nil => rfl
  | cons text texts ih =>
    rw [List.flatMap_cons, fits_append] at hfits
    obtain ⟨hplaced', hsheet⟩ := terminalRun_sheet screen text.chars
      (t := {t₁ with terminalFgColor := text.color, terminalBgColor := text.bgColor}) ⟨hplaced.column, hplaced.row⟩ hfits.1
    have hposition : (printc text.chars text.color text.bgColor t₁).linear = text.chars.foldl advance t₁.linear :=
      (congrArg Sheet.position hsheet).trans (type_position ..)
    refine (ih (printc text.chars text.color text.bgColor t₁) (hposition ▸ hfits.2) hplaced').trans ?_
    exact congrArg (Sheet.texts · texts) hsheet

/-- A letter in red, a line feed, and a letter and a backspace on blue. -/
theorem printTexts_sheet_two : (printTexts (terminalInit ⟨7, 3, 0, 0, []⟩) [⟨[0x41, 10], 4, 0⟩, ⟨[0x42, 8], 15, 1⟩]).sheet
      (fun _ => 0) = (clearSheet fun _ => 0).texts [⟨[0x41, 10], 4, 0⟩, ⟨[0x42, 8], 15, 1⟩] :=
  printTexts_sheet (fun _ => 0) ⟨7, 3, 0, 0, []⟩ _ ⟨by decide, by decide, by decide, by decide, trivial⟩

end BasicOS

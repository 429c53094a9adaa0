import BasicOS.Terminal.Screen

/-! Erasing what was typed.

Column 80 of a row and column 0 of the next are one place on the screen, `Terminal.linear`. A
glyph is stored there and moves the place on by one; a backspace moves it back by one and
blanks the cell. As many backspaces as glyphs lead back to where the word began, and its cells
are blank. But a backspace from the beginning of a row also blanks the cell it comes from: a
word that ends at the end of a row takes the cell behind it along. So erasing undoes typing
exactly when the word does not end there, or that cell is blank already
(`terminal_erases_iff`). -/
namespace BasicOS

/-- The place of the cursor, in cells from the first. -/
def Terminal.linear (t : Terminal) : Nat := textModeCharactersPerLine * t.terminalY + t.terminalX

/-- What a backspace leaves in a cell. -/
def blankCell : UInt16 := vgaMakeChar 32 textModeColorsBlack textModeColorsBlack

/-- What is in a cell of a screen that held `screen` before the stores. -/
def Terminal.cell (screen : Nat → UInt16) (t : Terminal) (c : Nat) : UInt16 :=
  ((t.video.find? fun store => store.1 = c).map Prod.snd).getD (screen c)

/-- The character is stored in a cell. -/
def IsGlyph (ch : UInt8) : Prop := ch ≠ 10 ∧ ch ≠ 8 ∧ ch ≠ 13 ∧ ch ≠ 9

/-- The cursor is on the screen; a full row is left at its end. -/
structure Terminal.Placed (t : Terminal) : Prop where
  column : t.terminalX ≤ textModeCharactersPerLine
  row : t.linear ≤ textModeCharactersPerLine * textModeVgaHeight

/-- A word written and erased. -/
def writeAndErase (t : Terminal) (word : List UInt8) : Terminal :=
  terminalRun t (word ++ List.replicate word.length 8)

/-- The cursor is back, the cells of the word are blank, and no other has changed. -/
structure Erased (screen : Nat → UInt16) (t : Terminal) (word : List UInt8) : Prop where
  position : (writeAndErase t word).linear = t.linear
  blanked : ∀ i, i < word.length → (writeAndErase t word).cell screen (t.linear + i) = blankCell
  kept : ∀ c, (∀ i, i < word.length → c ≠ t.linear + i) → (writeAndErase t word).cell screen c = t.cell screen c

/-! ### Cells -/

variable {t : Terminal} {screen : Nat → UInt16}

theorem cell_congr {s : Terminal} (h : t.video = s.video) (c : Nat) : t.cell screen c = s.cell screen c := by
  unfold Terminal.cell
  rw [h]

theorem cell_cons {s : Terminal} {i : Nat} {word : UInt16} (h : t.video = (i, word) :: s.video) (c : Nat) :
    t.cell screen c = if c = i then word else s.cell screen c := by
  unfold Terminal.cell
  rw [h, List.find?_cons]
  by_cases heq : c = i
  · subst heq
    simp
  · simp [heq, Ne.symm heq]

/-! ### One character -/

variable (screen)

/-- A glyph is stored at the cursor, which moves on. -/
theorem terminalPuts_glyph {ch : UInt8} (hch : IsGlyph ch) (h : t.Placed)
    (hfit : t.linear < textModeCharactersPerLine * textModeVgaHeight) :
    (terminalPuts ch t).Placed ∧ (terminalPuts ch t).linear = t.linear + 1 ∧
      ∀ c, c ≠ t.linear → (terminalPuts ch t).cell screen c = t.cell screen c := by
  obtain ⟨hx, hrow⟩ := h
  obtain ⟨hfeed, hback, hreturn, htab⟩ := hch
  have hwrapped : t.wrapped.terminalX < 80 ∧ 80 * t.wrapped.terminalY + t.wrapped.terminalX = t.linear := by
    unfold Terminal.linear at hfit ⊢
    unfold Terminal.wrapped
    simp only [textModeCharactersPerLine, textModeVgaHeight] at *
    split
    · refine ⟨Nat.zero_lt_succ 79, ?_⟩
      show 80 * u32 (t.terminalY + 1) + 0 = _
      rw [u32_of_lt (by omega)]
      omega
    · exact ⟨by omega, rfl⟩
  obtain ⟨hcolumn, hlinear⟩ := hwrapped
  simp only [textModeCharactersPerLine, textModeVgaHeight] at hfit
  have hcell : videoCell (u32 (t.wrapped.terminalY * textModeCharactersPerLine) + t.wrapped.terminalX) = t.linear := by
    unfold videoCell
    simp only [textModeCharactersPerLine]
    rw [u32_of_lt (by omega), Nat.mod_eq_of_lt (by omega)]
    omega
  have hnext : u32 (t.wrapped.terminalX + 1) = t.wrapped.terminalX + 1 := u32_of_lt (by omega)
  unfold terminalPuts
  simp only [if_neg hfeed, if_neg hback, if_neg hreturn, if_neg htab, hnext, hcell]
  refine ⟨⟨hcolumn, ?_⟩, ?_, fun c hc => ?_⟩
  · show 80 * t.wrapped.terminalY + (t.wrapped.terminalX + 1) ≤ 1600
    omega
  · show 80 * t.wrapped.terminalY + (t.wrapped.terminalX + 1) = _
    omega
  · rw [cell_cons rfl, if_neg hc]
    exact cell_congr (wrapped_video t) c

/-- Where the backspace goes from the end of a row, or the beginning of the next: to its last column. -/
theorem terminalPuts_backspace_row (hrow : t.linear ≤ textModeCharactersPerLine * textModeVgaHeight) (hpos : t.linear ≠ 0)
    (hfirst : t.terminalX = textModeCharactersPerLine ∨ t.terminalX = 0) :
    ∃ y, t.linear = 80 * (y + 1) ∧ terminalPuts 8 t = {t.wrapped with
      terminalX := 79, terminalY := y,
      video := (videoCell (vgaGetOffset 79 y), blankCell) :: (videoCell (vgaGetOffset 80 y), blankCell) :: t.video} := by
  have hputs : terminalPuts 8 t = terminalBackspace t.wrapped := rfl
  rw [hputs]
  unfold Terminal.linear at hrow hpos ⊢
  simp only [textModeCharactersPerLine, textModeVgaHeight] at *
  rcases hfirst with hfull | hzero
  · refine ⟨t.terminalY, by omega, ?_⟩
    have hwrap : t.wrapped = {t with terminalX := 0, terminalY := t.terminalY + 1} := by
      unfold Terminal.wrapped
      rw [if_pos (by rw [hfull]), u32_of_lt (by omega)]
    rw [hwrap]
    rfl
  · obtain ⟨y, hy⟩ : ∃ y, t.terminalY = y + 1 := ⟨t.terminalY - 1, by omega⟩
    refine ⟨y, by omega, ?_⟩
    have hwrap : t.wrapped = t := by
      unfold Terminal.wrapped
      rw [if_neg (by rw [hzero]; decide)]
    rw [hwrap]
    unfold terminalBackspace
    rw [if_neg (fun hhome => by omega)]
    simp only [if_pos hzero, hy]
    rfl

/-- Within a row it goes one column back. -/
theorem terminalPuts_backspace_column (hx : t.terminalX < textModeCharactersPerLine) (hpos : t.terminalX ≠ 0) :
    terminalPuts 8 t = {t with
      terminalX := t.terminalX - 1
      video := (videoCell (vgaGetOffset (t.terminalX - 1) t.terminalY), blankCell) :: t.video} := by
  have hwrap : t.wrapped = t := by
    unfold Terminal.wrapped
    rw [if_neg (by omega)]
  have hputs : terminalPuts 8 t = terminalBackspace t.wrapped := rfl
  rw [hputs, hwrap]
  unfold terminalBackspace
  rw [if_neg (fun hhome => by omega)]
  simp only [if_neg hpos]
  rfl

/-- A backspace blanks the cell before the cursor, and at the beginning of a row the one behind it. -/
theorem terminalPuts_backspace (h : t.Placed) (hpos : t.linear ≠ 0) :
    (terminalPuts 8 t).Placed ∧ (terminalPuts 8 t).linear + 1 = t.linear ∧
      ∀ c, (terminalPuts 8 t).cell screen c =
        if c + 1 = t.linear ∨ c = t.linear ∧ t.linear % textModeCharactersPerLine = 0 then blankCell
        else t.cell screen c := by
  obtain ⟨hx, hrow⟩ := h
  by_cases hfirst : t.terminalX = textModeCharactersPerLine ∨ t.terminalX = 0
  · -- the row above, from its end
    obtain ⟨y, hy, hputs⟩ := terminalPuts_backspace_row hrow hpos hfirst
    rw [hputs, hy]
    simp only [textModeCharactersPerLine, textModeVgaHeight] at hrow ⊢
    refine ⟨⟨by simp only [textModeCharactersPerLine]; omega, ?_⟩, rfl, fun c => ?_⟩
    · show 80 * y + 79 ≤ 1600
      omega
    · have hlast : videoCell (vgaGetOffset 79 y) = 80 * y + 79 := by
        rw [videoCell_vgaGetOffset]
        omega
      have hbehind : videoCell (vgaGetOffset 80 y) = 80 * y + 80 := by
        rw [videoCell_vgaGetOffset]
        omega
      rw [cell_cons (s := {t with video := (videoCell (vgaGetOffset 80 y), blankCell) :: t.video}) rfl,
        cell_cons (s := t) rfl, hlast, hbehind]
      split
      · rw [if_pos (by omega)]
      · split
        · rw [if_pos (by omega)]
        · rw [if_neg (by omega)]
  · rw [not_or] at hfirst
    rw [terminalPuts_backspace_column (by omega) hfirst.2]
    unfold Terminal.linear at hrow hpos ⊢
    simp only [textModeCharactersPerLine, textModeVgaHeight] at hx hrow hfirst ⊢
    refine ⟨⟨by simp only [textModeCharactersPerLine]; omega, ?_⟩, ?_, fun c => ?_⟩
    · show 80 * t.terminalY + (t.terminalX - 1) ≤ 1600
      omega
    · show 80 * t.terminalY + (t.terminalX - 1) + 1 = _
      omega
    · have hcell : videoCell (vgaGetOffset (t.terminalX - 1) t.terminalY) = 80 * t.terminalY + (t.terminalX - 1) := by
        rw [videoCell_vgaGetOffset]
        omega
      rw [cell_cons (s := t) rfl, hcell]
      split
      · rw [if_pos (by omega)]
      · rw [if_neg (by omega)]

/-! ### Words -/

theorem terminalRun_cons (t : Terminal) (ch : UInt8) (chars : List UInt8) :
    terminalRun t (ch :: chars) = terminalRun (terminalPuts ch t) chars := rfl

theorem terminalRun_append (t : Terminal) (chars rest : List UInt8) :
    terminalRun t (chars ++ rest) = terminalRun (terminalRun t chars) rest := List.foldl_append ..

/-- A word moves the cursor on by its length and leaves other cells. -/
theorem terminalRun_word {word : List UInt8} (hword : ∀ ch ∈ word, IsGlyph ch) (h : t.Placed)
    (hfit : t.linear + word.length ≤ textModeCharactersPerLine * textModeVgaHeight) :
    (terminalRun t word).Placed ∧ (terminalRun t word).linear = t.linear + word.length ∧
      ∀ c, (c < t.linear ∨ t.linear + word.length ≤ c) → (terminalRun t word).cell screen c = t.cell screen c := by
  induction word generalizing t with
  | nil => exact ⟨h, rfl, fun c _ => rfl⟩
  | cons ch word ih =>
    rw [List.length_cons] at hfit
    obtain ⟨hplaced, hlinear, hcells⟩ := terminalPuts_glyph screen (hword ch (List.mem_cons_self ..)) h (by omega)
    obtain ⟨hplaced', hlinear', hcells'⟩ := ih (fun c hc => hword c (List.mem_cons_of_mem ch hc)) hplaced (by omega)
    rw [terminalRun_cons, List.length_cons]
    refine ⟨hplaced', by omega, fun c hc => ?_⟩
    rw [hcells' c (by omega), hcells c (by omega)]

/-- Backspaces blank the cells they pass, and the one behind if they begin at the beginning of a row. -/
theorem terminalRun_backspaces (h : t.Placed) (n : Nat) (hn : n ≤ t.linear) :
    (terminalRun t (List.replicate n 8)).linear + n = t.linear ∧
      ∀ c, (terminalRun t (List.replicate n 8)).cell screen c =
        if t.linear ≤ c + n ∧ c < t.linear ∨ n ≠ 0 ∧ c = t.linear ∧ t.linear % textModeCharactersPerLine = 0 then
          blankCell
        else t.cell screen c := by
  induction n generalizing t with
  | zero =>
    refine ⟨rfl, fun c => ?_⟩
    rw [if_neg (by omega)]
    rfl
  | succ n ih =>
    obtain ⟨hplaced, hlinear, hcells⟩ := terminalPuts_backspace screen h (by omega)
    obtain ⟨hlinear', hcells'⟩ := ih hplaced (by omega)
    rw [List.replicate_succ, terminalRun_cons]
    refine ⟨by omega, fun c => ?_⟩
    rw [hcells' c, hcells c]
    split
    · rw [if_pos (by omega)]
    · split
      · rw [if_pos (by omega)]
      · rw [if_neg (by omega)]

theorem isGlyph_letter : ∀ ch ∈ [(0x41 : UInt8)], IsGlyph ch :=
  List.forall_mem_singleton.mpr (by unfold IsGlyph; decide)

/-- **Erasing a word undoes typing it exactly when** it is empty, does not end at the end of a
row, or the cell behind it is blank already. -/
theorem terminal_erases_iff (screen : Nat → UInt16) (t : Terminal) (word : List UInt8)
    (hx : t.terminalX ≤ textModeCharactersPerLine) (hy : t.terminalY < textModeVgaHeight)
    (hword : ∀ ch ∈ word, IsGlyph ch)
    (hfit : t.linear + word.length ≤ textModeCharactersPerLine * textModeVgaHeight) :
    Erased screen t word ↔ word = [] ∨ (t.linear + word.length) % textModeCharactersPerLine ≠ 0 ∨
      t.cell screen (t.linear + word.length) = blankCell := by
  have hplaced : t.Placed := by
    refine ⟨hx, ?_⟩
    unfold Terminal.linear
    simp only [textModeCharactersPerLine, textModeVgaHeight] at *
    omega
  obtain ⟨htyped, hlinear, hcells⟩ := terminalRun_word screen hword hplaced hfit
  obtain ⟨hback, herased⟩ := terminalRun_backspaces screen htyped word.length (by omega)
  rw [← terminalRun_append] at hback herased
  change (writeAndErase t word).linear + _ = _ at hback
  change ∀ c, (writeAndErase t word).cell screen c = _ at herased
  rw [← List.length_eq_zero_iff]
  constructor
  · intro h
    by_contra hcontra
    obtain ⟨hlen, hend, hcell⟩ : word.length ≠ 0 ∧ (t.linear + word.length) % textModeCharactersPerLine = 0 ∧
        t.cell screen (t.linear + word.length) ≠ blankCell := by tauto
    have hkept := h.kept (t.linear + word.length) fun i hi => by omega
    rw [herased, if_pos (.inr ⟨hlen, hlinear.symm, by rw [hlinear]; exact hend⟩)] at hkept
    exact hcell hkept.symm
  · intro h
    refine ⟨by omega, fun i hi => ?_, fun c hc => ?_⟩
    · rw [herased, if_pos (by omega)]
    · have hout : c < t.linear ∨ t.linear + word.length ≤ c := by
        by_contra hin
        exact hc (c - t.linear) (by omega) (by omega)
      rw [herased]
      split
      · rename_i hblank
        obtain ⟨hlen, rfl, hend⟩ := hblank.resolve_left (by omega)
        rw [hlinear] at hend ⊢
        exact ((h.resolve_left hlen).resolve_left (not_not_intro hend)).symm
      · exact hcells c hout

/-- A letter in the first cell. -/
theorem terminal_erases_first : Erased (fun _ => 0x0742) ⟨0, 0, 15, 0, []⟩ [0x41] :=
  (terminal_erases_iff (fun _ => 0x0742) ⟨0, 0, 15, 0, []⟩ [0x41] (by decide) (by decide) isGlyph_letter
    (by decide)).mpr (.inr (.inl (by decide)))

/-- **A letter in the last column takes the first of the next row along.** -/
theorem terminal_erases_too_much : ¬ ∀ (screen : Nat → UInt16) (t : Terminal) (word : List UInt8),
    t.terminalX ≤ 80 → t.terminalY < 20 → (∀ ch ∈ word, IsGlyph ch) → t.linear + word.length ≤ 1600 →
      Erased screen t word := by
  intro h
  have herased := h (fun _ => 0x0742) ⟨79, 0, 15, 0, []⟩ [0x41] (by decide) (by decide) isGlyph_letter (by decide)
  have hkept := herased.kept 80 (by decide)
  exact absurd hkept (by decide)

end BasicOS

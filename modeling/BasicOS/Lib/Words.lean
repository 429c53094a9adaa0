import Mathlib.Tactic.Common
import Mathlib.Data.List.TakeWhile

/-! The words of a text between separators.

`splitOnP` cuts a list at every separator and keeps empty pieces; its first piece is the
longest beginning without a separator, and what follows the separator behind it is cut again
(`splitOnP_eq`). The words are the pieces that are not empty (`words`): the longest runs
without a separator. A reader that takes words one by one skips separators and takes a
run (`words_skip`, `words_run`); one that stops at the first empty piece has all words exactly
when nothing but empty pieces follow (`takeWhile_eq_filter_iff`). -/
namespace BasicOS.Lib

variable {A : Type*} (p : A → Bool)

/-- The longest runs without a separator, in order. -/
def words (l : List A) : List (List A) := (l.splitOnP p).filter fun piece => !piece.isEmpty

variable {p}

/-- What is left begins where dropping stopped. -/
theorem dropWhile_head {q : A → Bool} {a : A} {l rest : List A} (h : l.dropWhile q = a :: rest) : q a = false := by
  have hhead := List.head_dropWhile_not (p := q) (l := l) (by rw [h]; exact List.cons_ne_nil a rest)
  simpa [h] using hhead

/-- The first piece, and the pieces behind the separator it ends at. -/
theorem splitOnP_eq (l : List A) :
    l.splitOnP p = l.takeWhile (fun a => !p a) ::
      (match l.dropWhile (fun a => !p a) with
        | [] => []
        | _ :: rest => rest.splitOnP p) := by
  have hrun : ∀ a ∈ l.takeWhile (fun a => !p a), p a = false := by
    intro a ha
    simpa using List.mem_takeWhile_imp ha
  conv_lhs => rw [← List.takeWhile_append_dropWhile (p := fun a => !p a) (l := l)]
  cases hrest : l.dropWhile (fun a => !p a) with
  | nil => rw [List.append_nil, List.splitOnP_eq_singleton hrun]
  | cons a rest =>
    have hsep : p a = true := by simpa using dropWhile_head hrest
    exact List.splitOnP_append_cons_of_forall_mem hrun a hsep rest

@[simp] theorem words_nil : words p ([] : List A) = [] := by
  unfold words
  rw [List.splitOnP_nil]
  rfl

theorem words_cons_sep {a : A} (ha : p a = true) (l : List A) : words p (a :: l) = words p l := by
  unfold words
  rw [List.splitOnP_cons_eq_if_modifyHead, if_pos ha]
  rfl

/-- Separators in front belong to no word. -/
theorem words_skip (l : List A) : words p (l.dropWhile p) = words p l := by
  induction l with
  | nil => rfl
  | cons a l ih =>
    rw [List.dropWhile_cons]
    split
    · rename_i ha
      rw [ih, words_cons_sep ha]
    · rfl

/-- The first word of a text that begins with none. -/
theorem words_run {a : A} (ha : p a = false) (l : List A) :
    words p (a :: l) = (a :: l).takeWhile (fun b => !p b) :: words p ((a :: l).dropWhile fun b => !p b) := by
  have hpieces := splitOnP_eq (p := p) (a :: l)
  have hrest : words p ((a :: l).dropWhile fun b => !p b) =
      (match (a :: l).dropWhile (fun b => !p b) with
        | [] => []
        | _ :: rest => words p rest) := by
    cases hdrop : (a :: l).dropWhile (fun b => !p b) with
    | nil => rfl
    | cons b rest =>
      have hsep : p b = true := by simpa using dropWhile_head hdrop
      exact words_cons_sep hsep rest
  rw [hrest]
  unfold words
  rw [hpieces, List.filter_cons_of_pos (by simp [ha])]
  split <;> rfl

/-- There are no more words than characters. -/
theorem length_words_le (l : List A) : (words p l).length ≤ l.length := by
  induction hn : l.length using Nat.strong_induction_on generalizing l with
  | _ n ih =>
    cases l with
    | nil => exact Nat.zero_le n
    | cons a l =>
      rw [List.length_cons] at hn
      by_cases ha : p a = true
      · rw [words_cons_sep ha]
        exact Nat.le_of_lt (Nat.lt_of_le_of_lt (ih l.length (by omega) l rfl) (by omega))
      · rw [Bool.not_eq_true] at ha
        have hdrop : (l.dropWhile fun b => !p b).length ≤ l.length := List.length_dropWhile_le ..
        have hmore := ih _ (by omega) (l.dropWhile fun b => !p b) rfl
        rw [words_run ha, List.length_cons, List.dropWhile_cons_of_pos (by rw [ha]; rfl)]
        omega

/-- What stands before the first failure is all that passes exactly when nothing behind it does. -/
theorem takeWhile_eq_filter_iff {q : A → Bool} (l : List A) :
    l.takeWhile q = l.filter q ↔ l.Pairwise fun a b => q b = true → q a = true := by
  induction l with
  | nil => exact iff_of_true rfl List.Pairwise.nil
  | cons a l ih =>
    by_cases ha : q a = true
    · rw [List.takeWhile_cons_of_pos ha, List.filter_cons_of_pos ha, List.pairwise_cons, List.cons_inj_right, ih]
      exact ⟨fun h => ⟨fun b _ _ => ha, h⟩, fun h => h.2⟩
    · rw [List.takeWhile_cons_of_neg ha, List.filter_cons_of_neg ha, List.pairwise_cons, eq_comm,
        List.filter_eq_nil_iff]
      refine ⟨fun h => ⟨fun b hb hq => absurd hq (h b hb), ?_⟩, fun h b hb hq => ha (h.1 b hb hq)⟩
      exact List.pairwise_of_forall_mem_list fun b hb c hc hq => absurd hq (h c hc)

end BasicOS.Lib

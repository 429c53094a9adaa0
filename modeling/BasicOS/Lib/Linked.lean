import Mathlib.Tactic.Common
import Mathlib.Tactic.Ring

/-! Linked list segments.

`Seg next p xs q` says that following `next` from `p` visits exactly `xs` and arrives
at `q`; `BackSeg prev q xs l` is the same list read through the back pointers, from the
element before it to its last. Both change at their end only when an element is added
or removed there (`seg_concat`, `backSeg_concat`), and depend on the links of their own
elements (`Seg.congr`, `BackSeg.congr`). -/
namespace BasicOS.Lib

variable {A : Type*} {next next' prev prev' : A → A}

/-- From `p` the links visit `xs` in order and end at `q`. -/
def Seg (next : A → A) : A → List A → A → Prop
  | p, [], q => p = q
  | p, a :: rest, q => p = a ∧ Seg next (next a) rest q

/-- The back links of `xs`: the first points to `q`, each other to the one before it,
and `l` is the last (`q` when there is none). -/
def BackSeg (prev : A → A) : A → List A → A → Prop
  | q, [], l => q = l
  | q, a :: rest, l => prev a = q ∧ BackSeg prev a rest l

theorem seg_nil {p q : A} : Seg next p [] q ↔ p = q := Iff.rfl

theorem seg_cons {p q a : A} {rest : List A} : Seg next p (a :: rest) q ↔ p = a ∧ Seg next (next a) rest q :=
  Iff.rfl

theorem backSeg_cons {q l a : A} {rest : List A} :
    BackSeg prev q (a :: rest) l ↔ prev a = q ∧ BackSeg prev a rest l := Iff.rfl

theorem Seg.congr {p q : A} {xs : List A} (h : Seg next p xs q) (hnext : ∀ a ∈ xs, next' a = next a) :
    Seg next' p xs q := by
  induction xs generalizing p with
  | nil => exact h
  | cons a rest ih =>
    refine ⟨h.1, ?_⟩
    rw [hnext a (List.mem_cons_self ..)]
    exact ih h.2 fun b hb => hnext b (List.mem_cons_of_mem _ hb)

theorem BackSeg.congr {q l : A} {xs : List A} (h : BackSeg prev q xs l) (hprev : ∀ a ∈ xs, prev' a = prev a) :
    BackSeg prev' q xs l := by
  induction xs generalizing q with
  | nil => exact h
  | cons a rest ih =>
    refine ⟨?_, ih h.2 fun b hb => hprev b (List.mem_cons_of_mem _ hb)⟩
    rw [hprev a (List.mem_cons_self ..)]
    exact h.1

/-- A segment with a last element arrives there and leaves through its link. -/
theorem seg_concat {p q a : A} {xs : List A} :
    Seg next p (xs ++ [a]) q ↔ Seg next p xs a ∧ next a = q := by
  induction xs generalizing p with
  | nil => exact Iff.rfl
  | cons b rest ih =>
    rw [List.cons_append, seg_cons, seg_cons, ih, and_assoc]

theorem backSeg_concat {q l a : A} {xs : List A} :
    BackSeg prev q (xs ++ [a]) l ↔ BackSeg prev q xs (prev a) ∧ a = l := by
  induction xs generalizing q with
  | nil =>
    show prev a = q ∧ a = l ↔ q = prev a ∧ a = l
    rw [eq_comm]
  | cons b rest ih =>
    rw [List.cons_append, backSeg_cons, backSeg_cons, ih, and_assoc]

/-- A segment is left through its middle. -/
theorem seg_append {p q : A} {xs ys : List A} :
    Seg next p (xs ++ ys) q ↔ ∃ m, Seg next p xs m ∧ Seg next m ys q := by
  induction xs generalizing p with
  | nil =>
    constructor
    · exact fun h => ⟨p, rfl, h⟩
    · rintro ⟨m, rfl, h⟩
      exact h
  | cons a rest ih =>
    rw [List.cons_append, seg_cons, ih]
    constructor
    · rintro ⟨hp, m, hxs, hys⟩
      exact ⟨m, ⟨hp, hxs⟩, hys⟩
    · rintro ⟨m, ⟨hp, hxs⟩, hys⟩
      exact ⟨hp, m, hxs, hys⟩

theorem Seg.first {p q : A} {xs : List A} (h : Seg next p xs q) (hpos : 0 < xs.length) : p = xs[0] := by
  cases xs with
  | nil => cases hpos
  | cons a rest => exact h.1

/-- Every link but the last points to the element behind. -/
theorem Seg.link {p q : A} {xs : List A} (h : Seg next p xs q) {i : Nat} (hi : i + 1 < xs.length) :
    next xs[i] = xs[i + 1] := by
  induction xs generalizing p i with
  | nil => cases hi
  | cons a rest ih =>
    cases i with
    | zero => exact h.2.first (Nat.lt_of_succ_lt_succ hi)
    | succ i => exact ih h.2 (Nat.lt_of_succ_lt_succ hi)

/-- The last leaves the segment. -/
theorem Seg.last {p q : A} {xs : List A} (h : Seg next p xs q) {i : Nat} (hi : i + 1 = xs.length) :
    next (xs.get ⟨i, by omega⟩) = q := by
  induction xs generalizing p i with
  | nil => cases hi
  | cons a rest ih =>
    cases i with
    | zero =>
      cases rest with
      | nil => exact h.2
      | cons b rest => cases hi
    | succ i => exact ih h.2 (Nat.succ_inj.mp hi)

/-- Two neighbours point at each other. -/
theorem BackSeg.neighbour {q l a b : A} {xs ys : List A} (h : BackSeg prev q (xs ++ a :: b :: ys) l) :
    prev b = a := by
  induction xs generalizing q with
  | nil => exact h.2.1
  | cons c rest ih => exact ih h.2

/-- Every back link points to an element further up, or out of the list. -/
theorem BackSeg.prev_mem {q l b : A} {xs ys : List A} (h : BackSeg prev q (xs ++ b :: ys) l) :
    prev b = q ∨ prev b ∈ xs := by
  induction xs generalizing q with
  | nil => exact .inl h.1
  | cons c rest ih =>
    refine .inr ?_
    rcases ih h.2 with hc | hmem
    · exact hc ▸ List.mem_cons_self ..
    · exact List.mem_cons_of_mem _ hmem

end BasicOS.Lib

import Mathlib.Tactic.Common
import Mathlib.Tactic.Ring

/-! Programs over a state that may stop early, and their weakest preconditions.

A `Program E S A` reads and changes a state `S`, and either returns an `A` or stops
with an `E`, after which nothing more is done. `wp x Q R s` says that `x` started in
`s` ends in `Q` if it returns and in `R` if it stops; `wp_bind` and its companions
take it apart along the program's own text, so that a proof about a function cites one
specification for each function it calls. -/
namespace BasicOS.Lib

/-- A computation on states `S` that may stop with an `E`. -/
abbrev Program (E S : Type) := StateT S (Except E)

namespace Program

variable {E S T A B : Type}

/-- Stop: the rest of the program is not executed. -/
def stop (e : E) : Program E S A := fun _ => .error e

/-- Do `x` if the condition holds, and go on in either case. -/
def when (c : Prop) [Decidable c] (x : Program E S Unit) : Program E S Unit := if c then x else pure ()

/-- A program on a part of the state. -/
def zoom (get : S → T) (put : T → S → S) (x : Program E T A) : Program E S A := fun s =>
  match x (get s) with
  | .ok (a, t) => .ok (a, put t s)
  | .error e => .error e

/-! ### Evaluation at a state -/

theorem bind_apply (x : Program E S A) (f : A → Program E S B) (s : S) :
    (x >>= f) s = match x s with
      | .ok (a, t) => f a t
      | .error e => .error e := by
  show (StateT.bind x f) s = _
  unfold StateT.bind
  cases x s <;> rfl

theorem pure_apply (a : A) (s : S) : (pure a : Program E S A) s = .ok (a, s) := rfl

theorem get_apply (s : S) : (get : Program E S S) s = .ok (s, s) := rfl

theorem modify_apply (f : S → S) (s : S) : (modify f : Program E S PUnit) s = .ok (⟨⟩, f s) := rfl

theorem when_true {c : Prop} [Decidable c] (h : c) (x : Program E S Unit) : when c x = x := if_pos h

theorem when_false {c : Prop} [Decidable c] (h : ¬ c) (x : Program E S Unit) : when c x = pure () := if_neg h

/-- A program that returned did so through its first part. -/
theorem bind_ok {x : Program E S A} {f : A → Program E S B} {s : S} {r : B × S} :
    (x >>= f) s = .ok r ↔ ∃ a t, x s = .ok (a, t) ∧ f a t = .ok r := by
  rw [bind_apply]
  cases x s with
  | error e => simp
  | ok r =>
    obtain ⟨a, t⟩ := r
    simp [and_assoc]

theorem zoom_ok {get : S → T} {put : T → S → S} {x : Program E T A} {s : S} {r : A × S} :
    zoom get put x s = .ok r ↔ ∃ a t, x (get s) = .ok (a, t) ∧ r = (a, put t s) := by
  unfold zoom
  cases x (get s) with
  | error e => simp
  | ok r' =>
    obtain ⟨a, t⟩ := r'
    simp [eq_comm]

/-- What the program returns, without the state it leaves. -/
def result (x : Program E S A) (s : S) : Option A :=
  match x s with
  | .ok (a, _) => some a
  | .error _ => none

theorem result_eq_some {x : Program E S A} {s : S} {a : A} (h : result x s = some a) : ∃ t, x s = .ok (a, t) := by
  unfold result at h
  cases hx : x s with
  | error e => simp [hx] at h
  | ok r =>
    rw [hx] at h
    cases h
    exact ⟨r.2, rfl⟩

/-! ### Weakest preconditions -/

/-- From `s` the program returns into `Q` or stops in `R`. -/
def wp (x : Program E S A) (Q : A → S → Prop) (R : E → Prop) (s : S) : Prop :=
  match x s with
  | .ok (a, t) => Q a t
  | .error e => R e

variable {Q Q' : A → S → Prop} {R R' : E → Prop} {s : S}

theorem wp_ok {x : Program E S A} {a : A} {t : S} (h : x s = .ok (a, t)) : wp x Q R s ↔ Q a t := by
  unfold wp
  rw [h]

theorem wp_error {x : Program E S A} {e : E} (h : x s = .error e) : wp x Q R s ↔ R e := by
  unfold wp
  rw [h]

/-- What the weakest precondition says of a run that returned. -/
theorem wp.returned {x : Program E S A} (h : wp x Q R s) {a : A} {t : S} (hx : x s = .ok (a, t)) : Q a t :=
  (wp_ok hx).mp h

@[simp] theorem wp_pure (a : A) : wp (pure a : Program E S A) Q R s ↔ Q a s := Iff.rfl

@[simp] theorem wp_stop (e : E) : wp (stop e : Program E S A) Q R s ↔ R e := Iff.rfl

@[simp] theorem wp_get {Q : S → S → Prop} : wp (get : Program E S S) Q R s ↔ Q s s := Iff.rfl

@[simp] theorem wp_modify {Q : Unit → S → Prop} (f : S → S) :
    wp (modify f : Program E S Unit) Q R s ↔ Q () (f s) := Iff.rfl

@[simp] theorem wp_set {Q : PUnit → S → Prop} (t : S) : wp (set t : Program E S PUnit) Q R s ↔ Q ⟨⟩ t := Iff.rfl

@[simp] theorem wp_bind (x : Program E S A) (f : A → Program E S B) {Q : B → S → Prop} :
    wp (x >>= f) Q R s ↔ wp x (fun a t => wp (f a) Q R t) R s := by
  unfold wp
  rw [bind_apply]
  cases x s <;> exact Iff.rfl

@[simp] theorem wp_map (f : A → B) (x : Program E S A) {Q : B → S → Prop} :
    wp (f <$> x) Q R s ↔ wp x (fun a t => Q (f a) t) R s := by
  rw [map_eq_pure_bind, wp_bind]
  exact Iff.rfl

@[simp] theorem wp_zoom (get : S → T) (put : T → S → S) (x : Program E T A) :
    wp (zoom get put x) Q R s ↔ wp x (fun a t => Q a (put t s)) R (get s) := by
  unfold wp zoom
  cases x (get s) with
  | error e => exact Iff.rfl
  | ok r => exact Iff.rfl

theorem wp_when {c : Prop} [Decidable c] (x : Program E S Unit) {Q : Unit → S → Prop} :
    wp (when c x) Q R s ↔ (c → wp x Q R s) ∧ (¬ c → Q () s) := by
  unfold when
  by_cases h : c
  · simp [h]
  · simp [h]

/-- The rule of consequence. -/
theorem wp.mono {x : Program E S A} (h : wp x Q R s) (hQ : ∀ a t, Q a t → Q' a t) (hR : ∀ e, R e → R' e) :
    wp x Q' R' s := by
  unfold wp at *
  cases hx : x s with
  | error e => rw [hx] at h; exact hR e h
  | ok r => rw [hx] at h; exact hQ r.1 r.2 h

/-- A program that does not stop returns. -/
theorem wp.returns {x : Program E S A} (h : wp x Q (fun _ => False) s) : ∃ a t, x s = .ok (a, t) ∧ Q a t := by
  unfold wp at h
  cases hx : x s with
  | error e =>
    rw [hx] at h
    exact h.elim
  | ok r =>
    rw [hx] at h
    exact ⟨r.1, r.2, rfl, h⟩

/-- Whenever `x` started in `s` returns, it returns into `Q`. -/
abbrev Ensures (x : Program E S A) (Q : A → S → Prop) (s : S) : Prop := wp x Q (fun _ => True) s

theorem Ensures.mono {x : Program E S A} (h : Ensures x Q s) (hQ : ∀ a t, Q a t → Q' a t) : Ensures x Q' s :=
  wp.mono h hQ fun _ _ => trivial

/-- Sequencing: the second program starts where the specification of the first leaves it. -/
theorem wp.bind {x : Program E S A} {f : A → Program E S B} {Q : B → S → Prop} {P : A → S → Prop}
    (h : wp x P R s) (hf : ∀ a t, P a t → wp (f a) Q R t) : wp (x >>= f) Q R s :=
  (wp_bind x f).mpr (h.mono hf fun _ he => he)

/-- Whatever the first program does, what the second ensures from everywhere is ensured. -/
theorem Ensures.after {x : Program E S A} {f : A → Program E S B} {Q : B → S → Prop}
    (hf : ∀ a t, Ensures (f a) Q t) (s : S) : Ensures (x >>= f) Q s := by
  rw [Ensures, wp_bind]
  unfold wp
  split
  · exact hf _ _
  · trivial

/-- What a program returns is what it returns. -/
theorem Ensures.self (x : Program E S A) (s : S) : Ensures x (fun a t => x s = .ok (a, t)) s := by
  unfold Ensures wp
  split
  · assumption
  · trivial

/-- A program that stops does so with its error. -/
theorem Ensures.error {x : Program E S A} (h : Ensures x Q s) : wp x Q (fun e => x s = .error e) s := by
  unfold Ensures wp at *
  cases hx : x s with
  | error e => rfl
  | ok r =>
    rw [hx] at h
    exact h

/-- Two specifications of one program. -/
theorem wp.and {x : Program E S A} (h : wp x Q R s) (h' : wp x Q' R' s) :
    wp x (fun a t => Q a t ∧ Q' a t) (fun e => R e ∧ R' e) s := by
  unfold wp at *
  split <;> rename_i heq
  all_goals
    rw [heq] at h h'
    exact ⟨h, h'⟩

theorem Ensures.and {x : Program E S A} (h : Ensures x Q s) (h' : Ensures x Q' s) :
    Ensures x (fun a t => Q a t ∧ Q' a t) s :=
  (wp.and h h').mono (fun _ _ h => h) fun _ _ => trivial

/-! ### Preserved properties -/

/-- Whenever the program returns from a state with `P`, the state it leaves has `P`. -/
def Preserves (x : Program E S A) (P : S → Prop) : Prop := ∀ s, P s → wp x (fun _ t => P t) (fun _ => True) s

variable {P : S → Prop}

theorem preserves_pure (a : A) : Preserves (pure a : Program E S A) P := fun _ h => h

theorem preserves_get : Preserves (get : Program E S S) P := fun _ h => h

theorem preserves_stop (e : E) : Preserves (stop e : Program E S A) P := fun _ _ => trivial

theorem preserves_modify {f : S → S} (h : ∀ s, P s → P (f s)) :
    Preserves (modify f : Program E S PUnit) P := h

theorem Preserves.bind {x : Program E S A} {f : A → Program E S B} (hx : Preserves x P)
    (hf : ∀ a, Preserves (f a) P) : Preserves (x >>= f) P :=
  fun s hs => (hx s hs).bind fun a t ht => hf a t ht

theorem Preserves.ite {c : Prop} [Decidable c] {x y : Program E S A} (hx : Preserves x P) (hy : Preserves y P) :
    Preserves (if c then x else y) P := by
  split
  · exact hx
  · exact hy

theorem Preserves.when {c : Prop} [Decidable c] {x : Program E S Unit} (hx : Preserves x P) :
    Preserves (when c x) P := hx.ite (preserves_pure ())

end Program

end BasicOS.Lib

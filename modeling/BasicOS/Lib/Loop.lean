import BasicOS.Lib.Program

/-! Loops of programs.

A turn of a loop leaves it with a result or asks for another turn. `loop` allows so many
turns and stops with `stuck` when the last of them asks for more. An invariant that counts
the turns left shows that a loop ends and what it leaves (`loop_wp`). -/
namespace BasicOS.Lib.Program

variable {E S X A : Type}

/-- How a turn ends. -/
inductive Turn (X A : Type)
  | leave (a : A)
  | again (x : X)

/-- A turn leaves with a result as `Q` says, or goes on as `I` says. -/
def Turn.To (Q : A → S → Prop) (I : X → S → Prop) : Turn X A → S → Prop
  | .leave a => Q a
  | .again x => I x

def loop (stuck : E) (turn : X → Program E S (Turn X A)) : Nat → X → Program E S A
  | 0, _ => stop stuck
  | turns + 1, x => do
    match ← turn x with
    | .leave a => return a
    | .again y => loop stuck turn turns y

variable {stuck : E} {turn : X → Program E S (Turn X A)} {Q : A → S → Prop} {R : E → Prop}

theorem loop_leave {x : X} {a : A} {s t : S} (h : turn x s = .ok (.leave a, t)) (turns : Nat) :
    loop stuck turn (turns + 1) x s = .ok (a, t) := by
  unfold loop
  rw [bind_apply, h]
  rfl

theorem loop_again {x y : X} {s t : S} (h : turn x s = .ok (.again y, t)) (turns : Nat) :
    loop stuck turn (turns + 1) x s = loop stuck turn turns y t := by
  rw [loop, bind_apply, h]

/-- **The rule for loops.** Where the invariant allows `n` more turns, a turn leaves the loop as
wanted, or goes on where it allows fewer. -/
theorem loop_wp {I : Nat → X → S → Prop}
    (hturn : ∀ n x s, I n x s → wp (turn x) (Turn.To Q fun y t => ∃ k, k < n ∧ I k y t) R s) {n turns : Nat}
    {x : X} {s : S} (h : I n x s) (hn : n < turns) : wp (loop stuck turn turns x) Q R s := by
  induction turns generalizing n x s with
  | zero => exact absurd hn (Nat.not_lt_zero n)
  | succ turns ih =>
    unfold loop
    refine (hturn n x s h).bind fun end' t hend => ?_
    cases end' with
    | leave a => exact hend
    | again y =>
      obtain ⟨k, hk, hI⟩ := hend
      exact ih hI (by omega)

/-- Where each turn leaves or goes on as wanted, so does the loop, if it ends. -/
theorem loop_ensures {I : X → S → Prop} (hturn : ∀ x s, I x s → Ensures (turn x) (Turn.To Q I) s) {x : X} {s : S}
    (h : I x s) (turns : Nat) : Ensures (loop stuck turn turns x) Q s := by
  induction turns generalizing x s with
  | zero => trivial
  | succ turns ih =>
    unfold loop
    refine (hturn x s h).bind fun end' t hend => ?_
    cases end' with
    | leave a => exact hend
    | again y => exact ih hend

end BasicOS.Lib.Program

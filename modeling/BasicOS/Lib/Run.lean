import Mathlib.Tactic.Common
import Mathlib.Tactic.Ring

/-! Runs of a system that takes one operation after another.

`step s op t` says the system can go from `s` to `t` by `op`; `ok s op` is what a
run promises about each operation in the state it is made in. `Run.invariant` is
the induction every safety theorem over whole runs uses, so that each of them is
left with its start and one step. -/
namespace BasicOS.Lib

variable {S Op : Type*}

/-- The states reached from `start` by operations that all satisfy `ok`. -/
inductive Run (step : S → Op → S → Prop) (ok : S → Op → Prop) (start : S → Prop) : S → Prop where
  | start {s} : start s → Run step ok start s
  | step {s op t} : Run step ok start s → ok s op → step s op t → Run step ok start t

variable {step : S → Op → S → Prop} {ok ok' : S → Op → Prop} {start start' : S → Prop}

/-- What holds at the start and survives every permitted operation holds in every
state of the run. -/
theorem Run.invariant {I : S → Prop} (hstart : ∀ s, start s → I s)
    (hstep : ∀ s op t, I s → ok s op → step s op t → I t) {s : S}
    (h : Run step ok start s) : I s := by
  induction h with
  | start h => exact hstart _ h
  | step _ hok hs ih => exact hstep _ _ _ ih hok hs

/-- A run that goes on where another one ended. -/
theorem Run.trans {s t : S} (h : Run step ok start s) (h' : Run step ok (· = s) t) : Run step ok start t :=
  h'.invariant (fun _ heq => heq ▸ h) fun _ _ _ hrun hok hs => .step hrun hok hs

/-- A run that promises more, or starts in fewer states, is still a run. -/
theorem Run.mono (hstart : ∀ s, start s → start' s) (hok : ∀ s op, ok s op → ok' s op) {s : S}
    (h : Run step ok start s) : Run step ok' start' s := by
  induction h with
  | start h => exact .start (hstart _ h)
  | step _ ho hs ih => exact .step ih (hok _ _ ho) hs

end BasicOS.Lib

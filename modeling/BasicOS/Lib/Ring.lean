import Mathlib.Data.List.Basic
import Mathlib.Data.Nat.ModEq
import Mathlib.Logic.Function.Basic
import Mathlib.Tactic.Common
import Mathlib.Tactic.Ring

/-! Queues in a ring of cells.

`RingHolds n blank cell first xs` says that of `n` cells those from number `first` on hold
the queue `xs`, oldest first and around the end, and that every other cell is blank. The
queue grows at the cell behind its last element (`RingHolds.push`) and shrinks at its first
(`RingHolds.pop`); `first` only counts up, so it may be a counter that is reduced modulo
any multiple of `n`. -/
namespace BasicOS.Lib

variable {α : Type*} {n first : Nat} {blank x : α} {cell : Nat → α} {xs : List α}

structure RingHolds (n : Nat) (blank : α) (cell : Nat → α) (first : Nat) (xs : List α) : Prop where
  room : xs.length ≤ n
  held : ∀ j x, xs[j]? = some x → cell ((first + j) % n) = x
  free : ∀ i, i < n → (∀ j, j < xs.length → (first + j) % n ≠ i) → cell i = blank

/-- Cells less than a round apart are different. -/
theorem ring_index_inj {i j : Nat} (hi : i < n) (hj : j < n) (h : (first + i) % n = (first + j) % n) : i = j := by
  have hmod : i % n = j % n := Nat.ModEq.add_left_cancel' first h
  rwa [Nat.mod_eq_of_lt hi, Nat.mod_eq_of_lt hj] at hmod

theorem ringHolds_nil (h : ∀ i, i < n → cell i = blank) : RingHolds n blank cell first [] :=
  ⟨Nat.zero_le n, fun j x hx => by simp at hx, fun i hi _ => h i hi⟩

/-- The first cell of a queue holds its oldest element. -/
theorem RingHolds.oldest (h : RingHolds n blank cell first (x :: xs)) : cell (first % n) = x :=
  h.held 0 x rfl

/-- The first cell of an empty queue is blank. -/
theorem RingHolds.empty (h : RingHolds n blank cell first []) (hn : 0 < n) : cell (first % n) = blank :=
  h.free (first % n) (Nat.mod_lt first hn) fun j hj => (Nat.not_lt_zero j hj).elim

theorem RingHolds.push (h : RingHolds n blank cell first xs) (hroom : xs.length < n) (x : α) :
    RingHolds n blank (Function.update cell ((first + xs.length) % n) x) first (xs ++ [x]) := by
  refine ⟨?_, fun j y hy => ?_, fun i hi hout => ?_⟩
  · rw [List.length_append, List.length_singleton]
    exact hroom
  · by_cases hj : j = xs.length
    · subst hj
      rw [Function.update_self]
      simpa using hy
    · -- an element that was there before, in a cell of its own
      have hlt : j < xs.length := by
        have := (List.getElem?_eq_some_iff.mp hy).1
        rw [List.length_append, List.length_singleton] at this
        omega
      rw [Function.update_of_ne fun heq => hj (ring_index_inj (by omega) hroom heq)]
      rw [List.getElem?_append_left hlt] at hy
      exact h.held j y hy
  · have hlast := hout xs.length (by simp)
    rw [Function.update_of_ne (Ne.symm hlast)]
    exact h.free i hi fun j hj => hout j (by rw [List.length_append]; omega)

theorem RingHolds.pop (h : RingHolds n blank cell first (x :: xs)) :
    RingHolds n blank (Function.update cell (first % n) blank) (first + 1) xs := by
  have hroom := h.room
  rw [List.length_cons] at hroom
  refine ⟨by omega, fun j y hy => ?_, fun i hi hout => ?_⟩
  · have hj := (List.getElem?_eq_some_iff.mp hy).1
    rw [show first + 1 + j = first + (j + 1) by omega]
    rw [Function.update_of_ne]
    · exact h.held (j + 1) y hy
    · intro heq
      have := ring_index_inj (i := j + 1) (j := 0) (by omega) (by omega) heq
      omega
  · by_cases hfirst : i = first % n
    · subst hfirst
      exact Function.update_self ..
    · rw [Function.update_of_ne hfirst]
      refine h.free i hi fun j hj => ?_
      cases j with
      | zero => exact Ne.symm hfirst
      | succ j =>
        rw [show first + (j + 1) = first + 1 + j by omega]
        exact hout j (by rw [List.length_cons] at hj; omega)

end BasicOS.Lib

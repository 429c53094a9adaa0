import Mathlib.Data.List.Pairwise
import Mathlib.Tactic.Ring
import Mathlib.Tactic.Common

/-! Extents: runs of consecutive indexes, and lists of extents that do not meet.

An allocator over numbered blocks hands out extents. `holder xs i` is the extent
of the list that holds index `i`; in a list whose extents are pairwise apart it
is the only one (`holder_eq_some`), which is what makes a table that records only
the extents' marks enough to tell them apart. -/
namespace BasicOS.Lib

/-- The indexes `start, …, start + len - 1`. -/
structure Extent where
  start : Nat
  len : Nat
deriving DecidableEq, Repr

namespace Extent

def Holds (e : Extent) (i : Nat) : Prop := e.start ≤ i ∧ i < e.start + e.len

@[simp] theorem holds_mk {a n i : Nat} : Holds ⟨a, n⟩ i ↔ a ≤ i ∧ i < a + n := Iff.rfl

instance (e : Extent) (i : Nat) : Decidable (e.Holds i) := by unfold Holds; infer_instance

/-- No index is in both. -/
def Apart (a b : Extent) : Prop := ∀ i, a.Holds i → ¬ b.Holds i

theorem Apart.symm {a b : Extent} (h : Apart a b) : Apart b a := fun i hb ha => h i ha hb

theorem apart_of_le {a b : Extent} (h : a.start + a.len ≤ b.start) : Apart a b := by
  intro i ha hb
  unfold Holds at ha hb
  omega

/-- An empty extent meets nothing. -/
theorem apart_of_len_zero {a b : Extent} (h : a.len = 0) : Apart a b := by
  intro i ha
  unfold Holds at ha
  omega

/-- Two extents that are apart and not empty lie one before the other. -/
theorem Apart.order {a b : Extent} (h : Apart a b) (ha : 0 < a.len) (hb : 0 < b.len) :
    a.start + a.len ≤ b.start ∨ b.start + b.len ≤ a.start := by
  by_contra hc
  have hstart := h (max a.start b.start)
  unfold Holds at hstart
  omega

end Extent

open Extent

/-- The first extent of the list that holds the index. -/
def holder (xs : List Extent) (i : Nat) : Option Extent := xs.find? (·.Holds i)

@[simp] theorem holder_nil (i : Nat) : holder [] i = none := rfl

theorem holder_cons (e : Extent) (xs : List Extent) (i : Nat) :
    holder (e :: xs) i = if e.Holds i then some e else holder xs i := by
  by_cases h : e.Holds i <;> simp [holder, h]

theorem holder_eq_none {xs : List Extent} {i : Nat} :
    holder xs i = none ↔ ∀ e ∈ xs, ¬ e.Holds i := by
  simp [holder]

/-- In a list of extents pairwise apart, the holder of an index is the extent that
holds it. -/
theorem holder_eq_some {xs : List Extent} (hp : xs.Pairwise Apart) {i : Nat} {e : Extent}
    (hmem : e ∈ xs) (hi : e.Holds i) : holder xs i = some e := by
  induction xs with
  | nil => cases hmem
  | cons a rest ih =>
    rw [holder_cons]
    obtain ⟨ha, hrest⟩ := List.pairwise_cons.mp hp
    rcases List.mem_cons.mp hmem with rfl | hmem
    · rw [if_pos hi]
    · rw [if_neg (fun hai => ha e hmem i hai hi)]
      exact ih hrest hmem

/-- Dropping extents that do not hold the index leaves its holder. -/
theorem holder_filter {xs : List Extent} (q : Extent → Bool) {i : Nat}
    (h : ∀ e ∈ xs, e.Holds i → q e = true) : holder (xs.filter q) i = holder xs i := by
  induction xs with
  | nil => rfl
  | cons a rest ih =>
    have hrest := ih (fun e he => h e (List.mem_cons_of_mem a he))
    by_cases ha : a.Holds i
    · rw [List.filter_cons_of_pos (h a (List.mem_cons_self ..) ha), holder_cons, holder_cons,
        if_pos ha, if_pos ha]
    · rw [holder_cons, if_neg ha]
      cases hq : q a
      · rw [List.filter_cons_of_neg (by simp [hq])]
        exact hrest
      · rw [List.filter_cons_of_pos hq, holder_cons, if_neg ha]
        exact hrest

end BasicOS.Lib

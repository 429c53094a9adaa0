import BasicOS.Memory.Contract

/-! An allocator that keeps the contract and can be run.

`ladder` cuts the heap's range into blocks of four pages and gives them out from the bottom
up, never the same one twice. -/
namespace BasicOS
open Lib

/-- How many blocks were given out, and the addresses of those that are live. -/
structure Ladder where
  next : Nat
  live : List Nat
deriving DecidableEq, Repr

abbrev ladderStep : Nat := 4 * heapBlockSize

/-- The address of block `k`. -/
def ladderAddr (k : Nat) : Nat := heapBaseAddress + k * ladderStep

def ladder : Allocator Ladder where
  kmalloc size s :=
    if size ≤ ladderStep ∧ ladderAddr (s.next + 1) ≤ heapBaseAddress + heapMaxHeapSize then
      some (ladderAddr s.next, ⟨s.next + 1, ladderAddr s.next :: s.live⟩)
    else none
  kfree ptr s := {s with live := s.live.filter (· ≠ ptr)}

/-- What is live was given out. -/
structure Ladder.Sound (s : Ladder) : Prop where
  room : ladderAddr s.next ≤ heapBaseAddress + heapMaxHeapSize
  given : ∀ p ∈ s.live, ∃ k, k < s.next ∧ p = ladderAddr k

/-- The pages of the block at `p`. -/
def Ladder.pages (s : Ladder) (p : Nat) : Nat := if p ∈ s.live then 4 else 0

variable {s : Ladder} {p : Nat}

theorem Ladder.pages_ne_zero (h : s.pages p ≠ 0) : p ∈ s.live := by
  by_contra hp
  exact h (if_neg hp)

theorem Ladder.pages_kfree (s : Ladder) (p : Nat) : (ladder.kfree p s).pages = Function.update s.pages p 0 := by
  funext q
  unfold Ladder.pages
  by_cases hq : q = p
  · subst hq
    rw [Function.update_self, if_neg (by simp [ladder])]
  · rw [Function.update_of_ne hq]
    simp [ladder, hq]

theorem Ladder.Sound.kfree (h : s.Sound) (p : Nat) : (ladder.kfree p s).Sound :=
  ⟨h.room, fun q hq => h.given q (List.mem_filter.mp hq).1⟩

theorem Ladder.Sound.ne_null (h : s.Sound) (hp : p ∈ s.live) : p ≠ 0 := by
  obtain ⟨k, _, rfl⟩ := h.given p hp
  unfold ladderAddr
  simp only [heapBaseAddress]
  omega

/-- The ladder keeps the contract. -/
def ladderContract : Contract ladder where
  Valid := Ladder.Sound
  live := Ladder.pages
  placed := by
    intro s p h hp
    obtain ⟨k, hk, rfl⟩ := h.given p (Ladder.pages_ne_zero hp)
    have hroom := h.room
    unfold Ladder.pages
    rw [if_pos (Ladder.pages_ne_zero hp)]
    unfold ladderAddr at *
    simp only [heapBaseAddress, heapBlockSize, heapMaxHeapSize, ladderStep] at *
    omega
  apart := by
    intro s p q h hp hq hne
    obtain ⟨j, _, hpj⟩ := h.given p (Ladder.pages_ne_zero hp)
    obtain ⟨k, _, hqk⟩ := h.given q (Ladder.pages_ne_zero hq)
    unfold Ladder.pages
    rw [if_pos (Ladder.pages_ne_zero hp), if_pos (Ladder.pages_ne_zero hq)]
    unfold ladderAddr at *
    simp only [heapBlockSize, ladderStep] at *
    omega
  malloc := by
    intro s size ptr s' h hk
    unfold ladder at hk
    simp only at hk
    split at hk
    · rename_i hroom
      cases hk
      refine ⟨⟨hroom.2, fun p hp => ?_⟩, .inr ⟨?_, 4, by decide, hroom.1, funext fun p => ?_⟩⟩
      · rcases List.mem_cons.mp hp with rfl | hp
        · exact ⟨s.next, Nat.lt_succ_self _, rfl⟩
        · obtain ⟨k, hlt, heq⟩ := h.given p hp
          exact ⟨k, Nat.lt_succ_of_lt hlt, heq⟩
      · refine if_neg fun hlive => ?_
        obtain ⟨k, hlt, heq⟩ := h.given _ hlive
        unfold ladderAddr at heq
        simp only [heapBlockSize, ladderStep] at heq
        omega
      · by_cases hp : p = ladderAddr s.next
        · subst hp
          rw [Function.update_self]
          exact if_pos (List.mem_cons_self ..)
        · rw [Function.update_of_ne hp]
          simp [Ladder.pages, hp]
    · cases hk
  free := fun h _ => ⟨h.kfree _, Ladder.pages_kfree _ _⟩
  free_null := by
    intro s h
    refine ⟨h.kfree 0, (Ladder.pages_kfree s 0).trans ?_⟩
    rw [Function.update_eq_self_iff]
    exact (if_neg fun hlive => h.ne_null hlive rfl).symm

/-- Nothing given out yet. -/
theorem ladder_sound : (Ladder.mk 0 []).Sound := ⟨by decide, fun p hp => (List.not_mem_nil hp).elim⟩

end BasicOS

import BasicOS.CString

/-! The comparison of names, `istrncmp` of `string.c`.

The loop ends at the first two characters that differ with and without their case, at a zero, or
at the bound. It reads both strings at the same distance, so that neither is read behind its zero
(`istrncmpAt_reads`), and returns 0 just for strings that are one when folded to small letters, up
to the bound (`istrncmp_eq_zero_iff`). -/
namespace BasicOS
open Lib

/-- What a comparison returns, and the addresses it reads of either string. -/
structure Comparison where
  result : Int
  reads1 : List Nat
  reads2 : List Nat

/-- The loop of `istrncmp` with the pointers. -/
def istrncmpAt (mem : Memory) : Nat → Nat → Nat → Comparison
  | 0, _, _ => ⟨0, [], []⟩
  | max + 1, str1, str2 =>
    let u1 := mem str1
    let u2 := mem str2
    let rest :=
      if u1 ≠ u2 ∧ tolower u1 ≠ tolower u2 then ⟨u1.toNat - u2.toNat, [], []⟩
      else if u1 = 0 then ⟨0, [], []⟩
      else istrncmpAt mem max (str1 + 1) (str2 + 1)
    ⟨rest.result, str1 :: rest.reads1, str2 :: rest.reads2⟩

/-- The characters up to the bound, folded. -/
def folded (max : Nat) (chars : List UInt8) : List UInt8 := (chars.take max).map tolower

variable {mem : Memory} {a b : List UInt8} {max p q : Nat}

theorem tolower_eq_zero {c : UInt8} : tolower c = 0 ↔ c = 0 := by
  unfold tolower
  split
  · exact Iff.rfl
  · rename_i hletter
    rw [not_or, UInt8.not_lt, UInt8.not_lt, UInt8.le_iff_toNat_le, UInt8.le_iff_toNat_le] at hletter
    rw [← UInt8.toNat_inj, ← UInt8.toNat_inj, UInt8.toNat_add]
    obtain ⟨hge, hle⟩ := hletter
    change 65 ≤ c.toNat at hge
    change c.toNat ≤ 90 at hle
    show (c.toNat + 32) % 2 ^ 8 = 0 ↔ c.toNat = 0
    omega

/-- Characters that differ, but not in their case. -/
theorem differ_iff {c d : UInt8} : (c ≠ d ∧ tolower c ≠ tolower d) ↔ tolower c ≠ tolower d :=
  and_iff_right_of_imp fun h heq => h (congrArg tolower heq)

theorem stored_head (h : Stored mem p (a ++ [0])) : mem p = a.headD 0 := by
  cases a with
  | nil => exact (stored_cons.mp h).1
  | cons c a => exact (stored_cons.mp h).1

/-- A string goes on behind a character. -/
theorem stored_next (h : Stored mem p (a ++ [0])) (hne : mem p ≠ 0) :
    Stored mem (p + 1) (a.tail ++ [0]) ∧ a.tail.length + 1 = a.length := by
  cases a with
  | nil => exact absurd (stored_head h) hne
  | cons c a => exact ⟨(stored_cons.mp h).2, rfl⟩

/-- The second string goes on as well where the loop does. -/
theorem goes_on {c d : UInt8} (hsame : ¬ (c ≠ d ∧ tolower c ≠ tolower d)) (hc : c ≠ 0) : d ≠ 0 := by
  rw [differ_iff, not_not] at hsame
  rwa [Ne, ← tolower_eq_zero, ← hsame, tolower_eq_zero]

/-- The comparison is that of the strings at the pointers, and reads them side by side. -/
theorem istrncmpAt_spec (ha : Stored mem p (a ++ [0])) (hb : Stored mem q (b ++ [0])) :
    (istrncmpAt mem max p q).result = istrncmp a b max ∧
      ∃ k, (istrncmpAt mem max p q).reads1 = List.range' p k ∧ (istrncmpAt mem max p q).reads2 = List.range' q k ∧
        k ≤ max ∧ k ≤ a.length + 1 ∧ k ≤ b.length + 1 := by
  induction max generalizing a b p q with
  | zero => exact ⟨rfl, 0, rfl, rfl, Nat.le_refl 0, Nat.zero_le _, Nat.zero_le _⟩
  | succ max ih =>
    unfold istrncmpAt istrncmp
    rw [← stored_head ha, ← stored_head hb]
    by_cases hdiffer : mem p ≠ mem q ∧ tolower (mem p) ≠ tolower (mem q)
    · simp only [if_pos hdiffer]
      exact ⟨trivial, 1, rfl, rfl, Nat.succ_le_succ (Nat.zero_le _), Nat.succ_le_succ (Nat.zero_le _),
        Nat.succ_le_succ (Nat.zero_le _)⟩
    by_cases hend : mem p = 0
    · simp only [if_neg hdiffer, if_pos hend]
      exact ⟨trivial, 1, rfl, rfl, Nat.succ_le_succ (Nat.zero_le _), Nat.succ_le_succ (Nat.zero_le _),
        Nat.succ_le_succ (Nat.zero_le _)⟩
    · simp only [if_neg hdiffer, if_neg hend]
      obtain ⟨hresta, hlena⟩ := stored_next ha hend
      obtain ⟨hrestb, hlenb⟩ := stored_next hb (goes_on hdiffer hend)
      obtain ⟨hresult, k, hreads1, hreads2, hmax, hka, hkb⟩ := ih hresta hrestb
      refine ⟨hresult, k + 1, ?_, ?_, by omega, by omega, by omega⟩
      · rw [hreads1, List.range'_succ]
      · rw [hreads2, List.range'_succ]

/-- Strings that are equal up to the bound, apart from their case, are those for which 0 is
returned. -/
theorem istrncmp_eq_zero_iff (ha : ∀ c ∈ a, c ≠ 0) (hb : ∀ c ∈ b, c ≠ 0) :
    istrncmp a b max = 0 ↔ folded max a = folded max b := by
  induction max generalizing a b with
  | zero => exact ⟨fun _ => rfl, fun _ => rfl⟩
  | succ max ih =>
    have hfold : ∀ chars : List UInt8, tolower (chars.headD 0) = (folded (max + 1) chars).headD 0 := by
      intro chars
      cases chars <;> rfl
    unfold istrncmp
    by_cases hdiffer : a.headD 0 ≠ b.headD 0 ∧ tolower (a.headD 0) ≠ tolower (b.headD 0)
    · have hne : ((a.headD 0).toNat : Int) - (b.headD 0).toNat ≠ 0 := by
        have hnat := mt UInt8.toNat_inj.mp hdiffer.1
        omega
      rw [if_pos hdiffer]
      refine ⟨fun h => absurd h hne, fun h => absurd ?_ hdiffer.2⟩
      rw [hfold a, hfold b, h]
    · rw [if_neg hdiffer]
      cases a with
      | nil =>
        cases b with
        | nil => exact ⟨fun _ => rfl, fun _ => rfl⟩
        | cons d b =>
          rw [differ_iff, not_not] at hdiffer
          exact absurd (tolower_eq_zero.mp hdiffer.symm) (hb d (List.mem_cons_self ..))
      | cons c a =>
        have hc : c ≠ 0 := ha c (List.mem_cons_self ..)
        cases b with
        | nil => exact absurd rfl (goes_on hdiffer hc)
        | cons d b =>
          rw [differ_iff, not_not] at hdiffer
          have hrest := ih (fun c hc => ha c (List.mem_cons_of_mem _ hc)) (fun d hd => hb d (List.mem_cons_of_mem _ hd))
          have hfirst : tolower c = tolower d := hdiffer
          rw [if_neg (show ¬ (c :: a).headD 0 = 0 from hc)]
          show istrncmp a b max = 0 ↔ tolower c :: folded max a = tolower d :: folded max b
          rw [hrest, hfirst, List.cons_eq_cons]
          exact (and_iff_right rfl).symm

/-- A string, without its zero. -/
def Chars := {chars : List UInt8 // ∀ c ∈ chars, c ≠ 0}

/-- **`istrncmp` compares without case, and reads no further than it may.** For every bound and any two
strings in memory, 0 is returned exactly where the strings, up to the bound or their ends, are equal
when folded to small letters; neither is read behind its zero or beyond the bound; and to be equal
so is an equivalence on strings. -/
theorem istrncmp_exact (max : Nat) (mem : Memory) (p q : Nat) (a b : Chars) (ha : Stored mem p (a.val ++ [0]))
    (hb : Stored mem q (b.val ++ [0])) :
    ((istrncmpAt mem max p q).result = 0 ↔ folded max a.val = folded max b.val) ∧
      (∀ r ∈ (istrncmpAt mem max p q).reads1, p ≤ r ∧ r ≤ p + a.val.length ∧ r < p + max) ∧
      (∀ r ∈ (istrncmpAt mem max p q).reads2, q ≤ r ∧ r ≤ q + b.val.length ∧ r < q + max) ∧
      (istrncmpAt mem max p q).result = istrncmp a.val b.val max ∧
      Equivalence fun a b : Chars => istrncmp a.val b.val max = 0 := by
  obtain ⟨hresult, k, hreads1, hreads2, hmax, hka, hkb⟩ := @istrncmpAt_spec mem a.val b.val max p q ha hb
  refine ⟨?_, ?_, ?_, hresult, ?_⟩
  · rw [hresult]
    exact istrncmp_eq_zero_iff a.property b.property
  · intro r hr
    rw [hreads1, List.mem_range'_1] at hr
    omega
  · intro r hr
    rw [hreads2, List.mem_range'_1] at hr
    omega
  · constructor
    · exact fun x => (istrncmp_eq_zero_iff x.property x.property).mpr rfl
    · intro x y h
      rw [istrncmp_eq_zero_iff x.property y.property] at h
      exact (istrncmp_eq_zero_iff y.property x.property).mpr h.symm
    · intro x y z hxy hyz
      rw [istrncmp_eq_zero_iff x.property y.property] at hxy
      rw [istrncmp_eq_zero_iff y.property z.property] at hyz
      exact (istrncmp_eq_zero_iff x.property z.property).mpr (hxy.trans hyz)

/-- `"Sh"`, and `"sH"` behind it. -/
def shellNames : Memory := store (fun _ => 0) 0x400000 ([0x53, 0x68, 0] ++ [0x73, 0x48, 0])

def shellCapital : Chars := ⟨[0x53, 0x68], by simp⟩

def shellSmall : Chars := ⟨[0x73, 0x48], by simp⟩

theorem istrncmp_shell :
    ((istrncmpAt shellNames fsMaxPathLen 0x400000 0x400003).result = 0 ↔
        folded fsMaxPathLen shellCapital.val = folded fsMaxPathLen shellSmall.val) ∧
      (∀ r ∈ (istrncmpAt shellNames fsMaxPathLen 0x400000 0x400003).reads1, 0x400000 ≤ r ∧
        r ≤ 0x400000 + shellCapital.val.length ∧ r < 0x400000 + fsMaxPathLen) ∧
      (∀ r ∈ (istrncmpAt shellNames fsMaxPathLen 0x400000 0x400003).reads2, 0x400003 ≤ r ∧
        r ≤ 0x400003 + shellSmall.val.length ∧ r < 0x400003 + fsMaxPathLen) ∧
      (istrncmpAt shellNames fsMaxPathLen 0x400000 0x400003).result =
        istrncmp shellCapital.val shellSmall.val fsMaxPathLen ∧
      Equivalence fun a b : Chars => istrncmp a.val b.val fsMaxPathLen = 0 :=
  have hstored := stored_append.mp (stored_store (fun _ => 0) 0x400000 ([0x53, 0x68, 0] ++ [0x73, 0x48, 0]))
  istrncmp_exact fsMaxPathLen shellNames 0x400000 0x400003 shellCapital shellSmall hstored.1 hstored.2

end BasicOS

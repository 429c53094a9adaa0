import BasicOS.Fs.Path
import BasicOS.Lib.Words

/-! The components of a path.

A path is well formed if it has at most 108 characters and begins with a drive digit and
`:/`; its components are the pieces between the slashes behind that. `pparser_parse` takes
every well-formed path and no other, but an empty component looks to its loop like the end of
the path: what it returns are the components before the first empty one. These are all that
are not empty exactly when only empty ones follow, as behind a trailing slash (`PathComplete`);
`0:/a//b` loses its `b`. -/
namespace BasicOS
open Lib Program

/-- A drive digit, `:/`, and not too long. -/
def PathWellFormed (path : List UInt8) : Prop :=
  path.length ≤ fsMaxPathLen ∧ ∃ drive rest, path = drive :: 0x3A :: slash :: rest ∧ isdigit drive = true

/-- The pieces between the slashes behind the drive, the empty ones too. -/
def pathComponents (path : List UInt8) : List (List UInt8) := (path.drop 3).splitOn slash

/-- No component that is not empty stands behind an empty one. -/
def PathComplete (path : List UInt8) : Prop :=
  (pathComponents path).Pairwise fun before after => (!after.isEmpty) = true → (!before.isEmpty) = true

instance (path : List UInt8) : Decidable (PathComplete path) :=
  inferInstanceAs (Decidable (List.Pairwise _ _))

/-- What parsing should give: the drive and all components that are not empty, in order, for a
well-formed path, and nothing for any other. -/
structure PathParsed (path : List UInt8) (out : Option PathRoot) : Prop where
  accepted : out.isSome = true ↔ PathWellFormed path
  root : ∀ root, out = some root → (∃ drive, path.head? = some drive ∧ root.driveNumber = drive.toNat - 48) ∧
    root.parts.map PathPart.name = (pathComponents path).filter fun piece => !piece.isEmpty

/-! ### The format -/

theorem pathValidFormat_iff {path : List UInt8} : pathValidFormat path = true ↔
    ∃ drive rest, path = drive :: 0x3A :: slash :: rest ∧ isdigit drive = true := by
  unfold pathValidFormat
  constructor
  · intro h
    simp only [Bool.and_eq_true, decide_eq_true_eq, beq_iff_eq] at h
    obtain ⟨⟨hlen, hdigit⟩, hsep⟩ := h
    obtain ⟨drive, colon, third, rest, rfl⟩ : ∃ a b c rest, path = a :: b :: c :: rest := by
      rcases path with _ | ⟨a, _ | ⟨b, _ | ⟨c, rest⟩⟩⟩
      all_goals simp only [List.length_nil, List.length_cons] at hlen
      · omega
      · omega
      · omega
      · exact ⟨a, b, c, rest, rfl⟩
    rw [List.tail_cons, List.take_succ_cons, List.take_succ_cons, List.take_zero, List.cons.injEq,
      List.cons.injEq] at hsep
    obtain ⟨rfl, rfl, _⟩ := hsep
    exact ⟨drive, rest, rfl, hdigit⟩
  · rintro ⟨drive, rest, rfl, hdigit⟩
    simp [hdigit]

/-- The paths that are taken are the well-formed ones. -/
theorem pathAccepted_iff {path : List UInt8} : PathAccepted path ↔ PathWellFormed path := by
  unfold PathAccepted PathWellFormed getDriveByPath
  rw [and_congr_right_iff]
  intro _
  rw [← pathValidFormat_iff]
  cases hvalid : pathValidFormat path with
  | false =>
    rw [if_pos (by decide)]
    exact iff_of_false (by decide) (by decide)
  | true =>
    obtain ⟨drive, rest, rfl, hdigit⟩ := pathValidFormat_iff.mp hvalid
    refine iff_of_true ?_ rfl
    unfold isdigit at hdigit
    simp only [Bool.and_eq_true, decide_eq_true_eq] at hdigit
    have hlow : (47 : UInt8).toNat < drive.toNat := UInt8.lt_iff_toNat_lt.mp hdigit.1
    have hnum : (47 : UInt8).toNat = 47 := rfl
    show (0 : Int) ≤ drive.toNat - 48
    omega

/-! ### The parts -/

/-- The components before the first empty one. -/
def leadingParts (path : List UInt8) : List (List UInt8) :=
  (path.splitOn slash).takeWhile fun piece => !piece.isEmpty

/-- What one turn of the loop takes off. -/
theorem leadingParts_eq (path : List UInt8) :
    leadingParts path = if (nextPart path).1 = [] then [] else (nextPart path).1 :: leadingParts (nextPart path).2 := by
  have hpred : (fun c : UInt8 => !(c == slash)) = fun c => decide (c ≠ slash) := by
    funext c
    by_cases hc : c = slash <;> simp [hc]
  have hpieces := splitOnP_eq (p := (· == slash)) path
  rw [hpred] at hpieces
  unfold leadingParts nextPart
  rw [List.splitOn_eq_splitOnP, hpieces, List.takeWhile_cons]
  by_cases hempty : path.takeWhile (fun c => decide (c ≠ slash)) = []
  · rw [if_pos hempty, hempty]
    rfl
  · have hsome : (!(path.takeWhile fun c => decide (c ≠ slash)).isEmpty) = true := by simpa using hempty
    rw [if_neg hempty, if_pos hsome]
    cases path.dropWhile fun c => decide (c ≠ slash) with
    | nil => rfl
    | cons c rest => rfl

variable {H : Type} {A : Allocator H}

/-- Whatever the heap answers, the parts are the components before the first empty one. -/
theorem pparserParts_names (path : List UInt8) (r : Ram H) :
    Ensures (pparserParts A path) (fun parts _ => parts.map PathPart.name = leadingParts path) r := by
  -- the rest of the path is shorter
  induction hlen : path.length using Nat.strong_induction_on generalizing path r with
  | h n ih =>
    rw [pparserParts, leadingParts_eq]
    refine Ensures.after (fun part r₁ => ?_) r
    split
    · exact List.map_nil
    · rename_i hname
      refine Ensures.after (fun addr r₂ => Ensures.after (fun _ r₃ => ?_) r₂) r₁
      refine wp.bind (ih _ (hlen ▸ nextPart_length hname) _ r₃ rfl) fun parts r₄ hparts => ?_
      show ((nextPart path).1 :: parts.map PathPart.name) = _
      rw [hparts]

/-- A path that is not well formed is turned away. -/
theorem pparserParse_rejects {path : List UInt8} (h : ¬ PathWellFormed path) (r : Ram H) :
    pparserParse A path r = .ok (none, r) := by
  rw [← pathAccepted_iff, PathAccepted] at h
  unfold pparserParse
  by_cases hlong : path.length > fsMaxPathLen
  · rw [if_pos hlong]
    rfl
  · rw [if_neg hlong]
    have hdrive : getDriveByPath path < 0 := by omega
    simp only [if_pos hdrive]
    rfl

/-- A well-formed path gives its drive and the components before the first empty one. -/
theorem pparserParse_root {path : List UInt8} (h : PathWellFormed path) (r : Ram H) :
    Ensures (pparserParse A path) (fun out _ => ∃ root, out = some root ∧
      (∃ drive, path.head? = some drive ∧ root.driveNumber = drive.toNat - 48) ∧
      root.parts.map PathPart.name = leadingParts (path.drop 3)) r := by
  have haccepted := pathAccepted_iff.mpr h
  obtain ⟨_, drive, rest, hpath, hdigit⟩ := h
  have hres : getDriveByPath path = drive.toNat - 48 := by
    unfold getDriveByPath
    rw [pathValidFormat_iff.mpr ⟨drive, rest, hpath, hdigit⟩, hpath]
    rfl
  unfold pparserParse
  rw [if_neg (Nat.not_lt.mpr haccepted.1)]
  simp only [if_neg (Int.not_lt.mpr haccepted.2)]
  refine Ensures.after (fun addr r₁ => ?_) r
  refine wp.bind (pparserParts_names _ r₁) fun parts r₂ hparts => ?_
  exact ⟨_, rfl, ⟨drive, by rw [hpath]; rfl, hres⟩, hparts⟩

theorem leadingParts_complete (path : List UInt8) :
    leadingParts (path.drop 3) = (pathComponents path).filter (fun piece => !piece.isEmpty) ↔ PathComplete path :=
  takeWhile_eq_filter_iff _

/-- Whenever parsing returns, nothing is lost exactly if the path is complete or turned away. -/
theorem pparserParse_parsed (path : List UInt8) (r : Ram H) :
    Ensures (pparserParse A path) (fun out _ => PathParsed path out ↔ (PathWellFormed path → PathComplete path)) r := by
  by_cases hwell : PathWellFormed path
  · refine (pparserParse_root hwell r).mono fun out _ hroot => ?_
    obtain ⟨root, rfl, hdrive, hparts⟩ := hroot
    rw [← leadingParts_complete]
    constructor
    · exact fun h _ => hparts.symm.trans (h.root root rfl).2
    · refine fun h => ⟨iff_of_true rfl hwell, fun root' heq => ?_⟩
      cases heq
      exact ⟨hdrive, hparts.trans (h hwell)⟩
  · unfold Ensures wp
    rw [pparserParse_rejects hwell r]
    refine iff_of_true ⟨iff_of_false (by decide) hwell, fun root heq => ?_⟩ fun h => absurd h hwell
    cases heq

end BasicOS

import BasicOS.CString
import BasicOS.Status
import BasicOS.Memory.Contract

/-! Paths as `pparser.c` takes them apart.

A path is a drive digit, `:/` and parts between slashes; parsing stops at the first
empty part. The root, every part and every part's characters are blocks of their own.
Nothing here checks what `kzalloc` answered, and nothing in the kernel calls
`pparser_free`. -/
namespace BasicOS
open Lib Program

abbrev sizeofPathRoot : Nat := 8
abbrev sizeofPathPart : Nat := 8

/-- `struct path_part` at `addr`, with its characters at `part`. -/
structure PathPart where
  addr : Nat
  part : Nat
  name : List UInt8
deriving DecidableEq, Repr

/-- `struct path_root` at `addr`, with the list from `first` on. -/
structure PathRoot where
  addr : Nat
  driveNumber : Int
  parts : List PathPart
deriving DecidableEq, Repr

/-! ### The format -/

def pathValidFormat (filename : List UInt8) : Bool :=
  filename.length > 2 && isdigit (filename.headD 0) && filename.tail.take 2 == [0x3A, slash]

def getDriveByPath (path : List UInt8) : Int := if !pathValidFormat path then -ebadpath else atoic (path.headD 0)

/-- The characters before the next slash, and what is left behind it. -/
def nextPart (path : List UInt8) : List UInt8 × List UInt8 :=
  (path.takeWhile (· ≠ slash), (path.dropWhile (· ≠ slash)).drop 1)

theorem nextPart_length {path : List UInt8} (h : (nextPart path).1 ≠ []) :
    (nextPart path).2.length < path.length := by
  unfold nextPart at *
  have hlen := congrArg List.length (List.takeWhile_append_dropWhile (p := (· ≠ slash)) (l := path))
  rw [List.length_append] at hlen
  have hpos := List.length_pos_iff.mpr h
  rw [List.length_drop]
  simp only at hpos
  omega

/-! ### Parsing -/

variable {H : Type}

def pparserCreateRoot (A : Allocator H) : Program Stop (Ram H) Nat := do
  let pathR ← kzalloc A sizeofPathRoot
  when (pathR = 0) (stop .fault)
  return pathR

def pparserGetPathPart (A : Allocator H) (path : List UInt8) : Program Stop (Ram H) Nat := do
  let resultPathPart ← kzalloc A fsMaxPathLen
  if (nextPart path).1 = [] then
    kfree A resultPathPart
    return 0
  when (resultPathPart = 0) (stop .fault)
  return resultPathPart

/-- The parts of the path, each linked to the next. -/
def pparserParts (A : Allocator H) (path : List UInt8) : Program Stop (Ram H) (List PathPart) := do
  let pathPartStr ← pparserGetPathPart A path
  if _h : (nextPart path).1 = [] then return []
  else
    let part ← kzalloc A sizeofPathPart
    when (part = 0) (stop .fault)
    let parts ← pparserParts A (nextPart path).2
    return ⟨part, pathPartStr, (nextPart path).1⟩ :: parts
termination_by path.length
decreasing_by exact nextPart_length ‹_›

def pparserParse (A : Allocator H) (path : List UInt8) : Program Stop (Ram H) (Option PathRoot) := do
  if path.length > fsMaxPathLen then return none
  let res := getDriveByPath path
  if res < 0 then return none
  let pathRoot ← pparserCreateRoot A
  let parts ← pparserParts A (path.drop 3)
  return some ⟨pathRoot, res, parts⟩

/-! ### What parsing takes -/

variable {A : Allocator H} {C : Contract A} {r₀ r : Ram H} {xs : List Nat}

theorem pparserGetPathPart_spec (h : Taken C r₀ r xs) (path : List UInt8) :
    Ensures (pparserGetPathPart A path) (fun _ r' => Taken C r₀ r' xs) r := by
  unfold pparserGetPathPart
  refine (h.kzalloc_nonNull _).bind fun part r₁ h₁ => ?_
  split
  · exact h₁.1.kfree_nonNull
  · rw [wp_bind, wp_when]
    exact ⟨fun _ => trivial, fun _ => h₁.1.drop⟩

theorem pparserParts_spec (h : Taken C r₀ r xs) (path : List UInt8) :
    Ensures (pparserParts A path) (fun parts r' => Taken C r₀ r' xs ∧
      ∀ p next, parts = p :: next → p.name = (nextPart path).1) r := by
  -- the rest of the path is shorter
  induction hlen : path.length using Nat.strong_induction_on generalizing path r with
  | h n ih =>
    rw [pparserParts]
    refine (pparserGetPathPart_spec h path).bind fun part r₁ h₁ => ?_
    split
    · exact ⟨h₁, fun p next heq => by cases heq⟩
    · rename_i hname
      refine (h₁.kzalloc_nonNull _).bind fun addr r₂ h₂ => ?_
      rw [wp_bind, wp_when]
      refine ⟨fun _ => trivial, fun hne => ?_⟩
      refine (ih _ (hlen ▸ nextPart_length hname) h₂.1.drop _ rfl).bind fun parts r₃ h₃ => ?_
      exact ⟨h₃.1, fun p next heq => by cases heq; rfl⟩

theorem pparserCreateRoot_spec (h : Taken C r₀ r xs) :
    Ensures (pparserCreateRoot A) (fun root r' => Taken C r₀ r' (root :: xs)) r := by
  unfold pparserCreateRoot
  refine (h.kzalloc _).bind fun root r₁ h₁ => ?_
  rw [wp_bind, wp_when]
  refine ⟨fun _ => trivial, fun hne => ?_⟩
  rcases h₁ with ⟨hnull, _⟩ | ⟨_, h₁, _⟩
  · exact absurd hnull hne
  · exact h₁

/-- The paths `pparser_parse` does not turn away. -/
def PathAccepted (path : List UInt8) : Prop := path.length ≤ fsMaxPathLen ∧ 0 ≤ getDriveByPath path

/-- **Parsing a path** takes a block for its root, which stays taken, and loses nothing that
was there before; the part behind the drive is the first. A path turned away takes nothing. -/
theorem pparserParse_spec (h : Taken C r₀ r xs) (path : List UInt8) :
    Ensures (pparserParse A path) (fun root r' =>
      match root with
      | none => ¬ PathAccepted path ∧ r' = r
      | some root => PathAccepted path ∧ Taken C r₀ r' (root.addr :: xs) ∧
        ∀ p next, root.parts = p :: next → p.name = (nextPart (path.drop 3)).1) r := by
  unfold pparserParse PathAccepted
  split
  · exact ⟨fun haccepted => by omega, rfl⟩
  simp only
  split
  · exact ⟨fun haccepted => by omega, rfl⟩
  refine (pparserCreateRoot_spec h).bind fun root r₁ h₁ => ?_
  refine (pparserParts_spec h₁ _).bind fun parts r₂ h₂ => ?_
  exact ⟨by omega, h₂.1, h₂.2⟩

end BasicOS

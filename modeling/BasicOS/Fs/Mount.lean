import BasicOS.Fs.Usage

/-! Mounting, with what it takes from the heap.

`fat16_resolve` makes its private structure with three streams in it, and a fourth stream for the header, which it closes
at the end. A volume that is mounted keeps five blocks (`fat16ResolveWith_spec`): the structure, its streams, and the items
of the root directory. Of a volume that is refused only the structure is released, and the three streams stay behind. -/
namespace BasicOS
open Lib Program

variable {H : Type}

abbrev sizeofDiskStream : Nat := 8

abbrev sizeofFatPrivate : Nat := 92

/-- The blocks of a volume that is mounted. -/
structure Mount where
  fatPriv : Nat
  clusterReadStream : Nat
  fatReadStream : Nat
  directoryStream : Nat
  item : Nat

def Mount.blocks (m : Mount) : List Nat :=
  [m.item, m.directoryStream, m.fatReadStream, m.clusterReadStream, m.fatPriv]

/-- `diskstreamer_new` of the only disk; the stream is written to unchecked. -/
def diskstreamerNew (A : Allocator H) : Program Stop (Ram H) Nat := do
  let streamer ← kzalloc A sizeofDiskStream
  when (streamer = 0) (stop .fault)
  return streamer

/-- `fat16_get_root_directory`: the directory and the block of its items, which is asked for when they have been counted. -/
def fat16GetRootDirectoryWith (A : Allocator H) (disk : Memory) (header : FatHeader) :
    Program Stop (Ram H) (Except Int (Nat × FatDirectory)) := do
  match fat16GetRootDirectory disk header with
  | none => stop .diverges
  | some directory =>
    let item ← kzalloc A (rootDirSize header)
    if item = 0 then return .error (-enomem)
    return .ok (item, directory)

/-- `fat16_resolve` from its read of the header to `out`. -/
def fat16ReadVolume (A : Allocator H) (disk : Memory) : Program Stop (Ram H) (Except Int (Nat × FatPrivate)) := do
  let header := fatHeader disk
  if header.signature ≠ fatExtendedHeaderSignature then return .error (-efsnotsupported)
  match ← fat16GetRootDirectoryWith A disk header with
  | .error _ => return .error (-eio)
  | .ok (item, directory) => return .ok (item, ⟨header, directory⟩)

/-- `fat16_resolve`. -/
def fat16ResolveWith (A : Allocator H) (disk : Memory) : Program Stop (Ram H) (Except Int (Mount × FatPrivate)) := do
  let fatPriv ← kzalloc A sizeofFatPrivate
  -- `fat16_init_private` writes to it unchecked
  when (fatPriv = 0) (stop .fault)
  let clusterReadStream ← diskstreamerNew A
  let fatReadStream ← diskstreamerNew A
  let directoryStream ← diskstreamerNew A
  let stream ← diskstreamerNew A
  let res ← fat16ReadVolume A disk
  kfree A stream
  match res with
  | .error e =>
    kfree A fatPriv
    return .error e
  | .ok (item, priv) => return .ok (⟨fatPriv, clusterReadStream, fatReadStream, directoryStream, item⟩, priv)

/-- `disk_search_and_init`: the disk has a filesystem where the only driver resolves it. -/
def diskSearchAndInit (A : Allocator H) (disk : Memory) : Program Stop (Ram H) (Option Mount × Volume) := do
  match ← fat16ResolveWith A disk with
  | .error _ => return (none, ⟨disk, none⟩)
  | .ok (mount, priv) => return (some mount, ⟨disk, some priv⟩)

/-! ### What a mount takes -/

variable {A : Allocator H} {C : Contract A} {r₀ r : Ram H} {xs : List Nat} {disk : Memory}

theorem diskstreamerNew_spec (h : Taken C r₀ r xs) :
    Ensures (diskstreamerNew A) (fun stream r' => Taken C r₀ r' (stream :: xs)) r := by
  unfold diskstreamerNew
  refine (h.kzalloc sizeofDiskStream).bind fun stream r' hstream => ?_
  rw [wp_bind, wp_when]
  refine ⟨fun _ => trivial, fun hne => ?_⟩
  rcases hstream with ⟨hnull, _⟩ | ⟨_, htaken, _⟩
  · exact absurd hnull hne
  · exact htaken

/-- Reading the volume takes the items, and nothing when it is refused. -/
theorem fat16ReadVolume_spec (h : Taken C r₀ r xs) (disk : Memory) :
    Ensures (fat16ReadVolume A disk) (fun res r' =>
      match res with
      | .error _ => Taken C r₀ r' xs
      | .ok (item, priv) => fat16Resolve disk = some (.ok priv) ∧ Taken C r₀ r' (item :: xs)) r := by
  unfold fat16ReadVolume fat16GetRootDirectoryWith fat16Resolve
  simp only
  split
  · exact h
  cases hroot : fat16GetRootDirectory disk (fatHeader disk) with
  | none => trivial
  | some directory =>
    simp only
    rw [Ensures, wp_bind, wp_bind]
    refine (h.kzalloc _).mono fun item r' hitem => ?_
    rcases hitem with ⟨rfl, htaken⟩ | ⟨hne, htaken, _⟩
    · rw [if_pos rfl]
      exact htaken
    · rw [if_neg hne]
      exact ⟨rfl, htaken⟩

/-- **What a mount takes**: five blocks when the volume is mounted, and else its three streams. -/
theorem fat16ResolveWith_spec (h : Taken C r₀ r xs) (disk : Memory) :
    Ensures (fat16ResolveWith A disk) (fun res r' =>
      match res with
      | .error _ => ∃ clusterReadStream fatReadStream directoryStream,
        Taken C r₀ r' (directoryStream :: fatReadStream :: clusterReadStream :: xs)
      | .ok (mount, priv) => fat16Resolve disk = some (.ok priv) ∧ Taken C r₀ r' (mount.blocks ++ xs)) r := by
  unfold fat16ResolveWith
  refine (h.kzalloc _).bind fun fatPriv r₁ hpriv => ?_
  rw [wp_bind, wp_when]
  refine ⟨fun _ => trivial, fun hne => ?_⟩
  rcases hpriv with ⟨hnull, _⟩ | ⟨_, h₁, _⟩
  · exact absurd hnull hne
  refine (diskstreamerNew_spec h₁).bind fun clusterReadStream r₂ h₂ => ?_
  refine (diskstreamerNew_spec h₂).bind fun fatReadStream r₃ h₃ => ?_
  refine (diskstreamerNew_spec h₃).bind fun directoryStream r₄ h₄ => ?_
  refine (diskstreamerNew_spec h₄).bind fun stream r₅ h₅ => ?_
  refine (fat16ReadVolume_spec h₅ disk).bind fun res r₆ hread => ?_
  cases res with
  | error e =>
    -- only the structure is released
    have h₆ : Taken C r₀ r₆ (stream :: directoryStream :: fatReadStream :: clusterReadStream :: fatPriv :: xs) := hread
    have hlast : (directoryStream :: fatReadStream :: clusterReadStream :: fatPriv :: xs).Perm
        (fatPriv :: directoryStream :: fatReadStream :: clusterReadStream :: xs) :=
      @List.perm_middle _ fatPriv [directoryStream, fatReadStream, clusterReadStream] xs
    exact ⟨_, _, _, (h₆.kfree.perm hlast).kfree⟩
  | ok res =>
    obtain ⟨item, priv⟩ := res
    obtain ⟨hresolve, h₆⟩ := hread
    exact ⟨hresolve, (h₆.perm (.swap ..)).kfree⟩

/-- A mounted volume is the one that the header and the root directory describe. -/
theorem diskSearchAndInit_spec (h : Taken C r₀ r xs) (disk : Memory) :
    Ensures (diskSearchAndInit A disk) (fun out r' => (∃ ys, Taken C r₀ r' (ys ++ xs)) ∧
      match out.1 with
      | none => out.2 = ⟨disk, none⟩
      | some mount => ∃ priv, out.2 = ⟨disk, some priv⟩ ∧ fat16Resolve disk = some (.ok priv) ∧
        Taken C r₀ r' (mount.blocks ++ xs)) r := by
  unfold diskSearchAndInit
  refine (fat16ResolveWith_spec h disk).bind fun res r' hres => ?_
  cases res with
  | error e =>
    obtain ⟨clusterReadStream, fatReadStream, directoryStream, htaken⟩ := hres
    exact ⟨⟨[directoryStream, fatReadStream, clusterReadStream], htaken⟩, rfl⟩
  | ok res =>
    obtain ⟨mount, priv⟩ := res
    obtain ⟨hresolve, htaken⟩ := hres
    exact ⟨⟨mount.blocks, htaken⟩, priv, rfl, hresolve, htaken⟩

end BasicOS

import BasicOS.Fs.Descriptors

/-! What `fopen` and `fclose` leave behind.

A file opened and closed again should leave the heap and the descriptor table as they were,
and so should a file that could not be opened (`Balanced`). But nothing frees the root of a
parsed path: the two are balanced for the paths that `pparser_parse` turns away and for no
others (`fopen_balanced_iff`). -/
namespace BasicOS
open Lib Program

variable {H : Type} {A : Allocator H}

/-- The blocks of the heap and the descriptor table are the same. -/
def SameTables (C : Contract A) (s t : Files H) : Prop :=
  C.live t.ram.heap = C.live s.ram.heap ∧ t.fileDescriptors = s.fileDescriptors

/-- After `fopen` returned `fd` from `s`: nothing changed if it is 0, else `fclose` brings
back what was there. -/
def Balanced (C : Contract A) (s : Files H) (fd : Nat) (s' : Files H) : Prop :=
  (fd = 0 → SameTables C s s') ∧
  (fd ≠ 0 → ∃ res s'', fclose A fd s' = .ok (res, s'') ∧ SameTables C s s'')

variable {C : Contract A} {vol : Volume} {s s' : Files H}

/-- A block acquired and not released. -/
theorem Taken.not_sameTables {root : Nat} (h : Taken C s.ram s'.ram [root]) : ¬ SameTables C s s' := by
  rintro ⟨hlive, _⟩
  obtain ⟨hfree, htaken⟩ := h.fresh root (List.mem_cons_self ..)
  unfold Contract.pages at hfree htaken
  rw [hlive] at htaken
  exact htaken hfree

/-- The root of an accepted path is left behind, whether the file is opened or not. -/
theorem fopen_leaks (hvalid : C.Valid s.ram.heap) {filename modeStr : List UInt8} (haccepted : PathAccepted filename)
    {fd : Nat} (hopen : fopen A vol filename modeStr s = .ok (fd, s')) : ¬ Balanced C s fd s' := by
  rintro ⟨hzero, hclose⟩
  rcases (fopen_root (.refl hvalid) vol filename modeStr).returned hopen with ⟨hrefused, _⟩ | ⟨_, root, hfailed | hopened⟩
  · exact hrefused haccepted
  · obtain ⟨hfd, _, htaken⟩ := hfailed
    exact htaken.not_sameTables (hzero hfd)
  · obtain ⟨i, desc, rfl, hopened, _, htable, htaken⟩ := hopened
    obtain ⟨res, s'', hclosed, hsame⟩ := hclose (Nat.succ_ne_zero i)
    have hfd : s'.fileGetFd ((i + 1 : Nat) : Int) = some desc := by
      rw [fileGetFd_succ s' hopened.index, htable, Function.update_self]
    obtain ⟨_, _, hrest⟩ := (fclose_spec hfd hopened.type htaken).returned hclosed
    exact hrest.not_sameTables hsame

/-- **`fopen` and `fclose` leave nothing behind exactly when the path is turned away** by
`pparser_parse`: it is too long, or does not start with a drive. -/
theorem fopen_balanced_iff (C : Contract A) (vol : Volume) (filename modeStr : List UInt8) {s s' : Files H} {fd : Nat}
    (hvalid : C.Valid s.ram.heap) (hopen : fopen A vol filename modeStr s = .ok (fd, s')) :
    Balanced C s fd s' ↔ ¬ PathAccepted filename := by
  refine ⟨fun hbalanced haccepted => fopen_leaks hvalid haccepted hopen hbalanced, fun hrefused => ?_⟩
  rcases (fopen_root (.refl hvalid) vol filename modeStr).returned hopen with ⟨_, rfl, rfl⟩ | ⟨haccepted, _⟩
  · exact ⟨fun _ => ⟨rfl, rfl⟩, fun h => absurd rfl h⟩
  · exact absurd haccepted hrefused

/-- `x` names no drive. -/
theorem fopen_balanced_no_drive :
    Balanced ladderContract noFiles 0 noFiles ↔ ¬ PathAccepted [0x78] :=
  fopen_balanced_iff ladderContract oneFileVolume [0x78] [0x72] noFiles_valid rfl

/-- **A file opened and closed leaves a block behind**: `0:/x`, which exists. -/
theorem fopen_leaves_root :
    ¬ ∀ (H : Type) (A : Allocator H) (C : Contract A) (vol : Volume) (filename modeStr : List UInt8) (s s' : Files H)
      (fd : Nat), C.Valid s.ram.heap → fopen A vol filename modeStr s = .ok (fd, s') → Balanced C s fd s' := by
  intro h
  obtain ⟨files, hopen⟩ := fopen_pathX
  have haccepted : PathAccepted pathX := ⟨by decide, by decide⟩
  exact fopen_leaks noFiles_valid haccepted hopen
    (h Ladder ladder ladderContract oneFileVolume pathX [0x72] noFiles files 1 noFiles_valid hopen)

end BasicOS

import BasicOS.Fs.Usage
import BasicOS.Lib.Run
import BasicOS.Memory.Ladder
import Mathlib.Data.Finset.Card
import Mathlib.Order.Interval.Finset.Nat

/-! The descriptor table over runs of `fopen` and `fclose`.

A state carries the files that were opened and not closed, each with the descriptor its own
`fopen` made. In every state of a run (`descriptors_sound`) their ids are different and in
`1 … 512`, each still finds its own descriptor and every other number finds none; their
blocks are live and none has two uses. When all ids are taken `fopen` returns 0. -/
namespace BasicOS
open Lib Program

variable {H : Type} {A : Allocator H} {C : Contract A} {vol : Volume}

/-! ### Runs -/

/-- A file opened by its name: the id returned, and what `file_get_fd` gave for it then. -/
structure OpenedFile where
  id : Nat
  desc : Option FileDescriptor
  filename : List UInt8
deriving DecidableEq, Repr

structure FilesState (H : Type) where
  files : Files H
  opened : List OpenedFile

inductive FileOp where
  | fopen (filename modeStr : List UInt8)
  | fclose (fd : Int)

inductive FileStep (A : Allocator H) (vol : Volume) : FilesState H → FileOp → FilesState H → Prop where
  | refused {s files filename modeStr} : fopen A vol filename modeStr s.files = .ok (0, files) →
      FileStep A vol s (.fopen filename modeStr) ⟨files, s.opened⟩
  | opened {s files filename modeStr id} : fopen A vol filename modeStr s.files = .ok (id, files) → id ≠ 0 →
      FileStep A vol s (.fopen filename modeStr) ⟨files, ⟨id, files.fileGetFd id, filename⟩ :: s.opened⟩
  | closed {s files fd res} : fclose A fd s.files = .ok (res, files) →
      FileStep A vol s (.fclose fd) ⟨files, s.opened.filter fun f => (f.id : Int) ≠ fd⟩

/-- `fs_init`: no descriptor is in use. -/
structure FilesStart (C : Contract A) (r₀ : Ram H) (s : FilesState H) : Prop where
  valid : C.Valid r₀.heap
  ram : s.files.ram = r₀
  free : ∀ i, s.files.fileDescriptors i = none
  opened : s.opened = []

abbrev FilesRun (C : Contract A) (vol : Volume) (r₀ : Ram H) : FilesState H → Prop :=
  Run (FileStep A vol) (fun _ _ => True) (FilesStart C r₀)

/-! ### What holds of the table -/

/-- The blocks of the files that are open. -/
def FilesState.blocks (s : FilesState H) : List Nat := s.opened.flatMap fun f =>
    (f.desc.map FileDescriptor.blocks).getD []

/-- The open file still finds the descriptor its `fopen` made, for the file it named. -/
structure FilesState.Finds (s : FilesState H) (vol : Volume) (f : OpenedFile) (desc : FileDescriptor) : Prop where
  made : f.desc = some desc
  found : s.files.fileGetFd f.id = some desc
  id : desc.id = f.id
  names : vol.Names f.filename desc.priv.item.record

structure DescriptorsSound (C : Contract A) (vol : Volume) (s : FilesState H) : Prop where
  distinct : (s.opened.map OpenedFile.id).Nodup
  range : ∀ f ∈ s.opened, 1 ≤ f.id ∧ f.id ≤ maxFileDescriptorsActive
  finds : ∀ f ∈ s.opened, ∃ desc, s.Finds vol f desc
  closed : ∀ fd : Int, (∀ f ∈ s.opened, (f.id : Int) ≠ fd) → s.files.fileGetFd fd = none
  blocks : s.blocks.Nodup ∧ ∀ b ∈ s.blocks, C.pages s.files.ram b ≠ 0
  -- with every id taken `fopen` returns 0, and it returns if it would with none taken
  full : s.opened.length = maxFileDescriptorsActive → ∀ filename modeStr,
    (∀ fd files, fopen A vol filename modeStr s.files = .ok (fd, files) → fd = 0) ∧
    ((∃ out, fopen A vol filename modeStr {s.files with fileDescriptors := fun _ => none} = .ok out) →
      ∃ ram, fopen A vol filename modeStr s.files = .ok (0, {s.files with ram := ram}))

/-! ### The invariant -/

structure DescriptorTable (C : Contract A) (vol : Volume) (r₀ : Ram H) (s : FilesState H) : Prop where
  distinct : (s.opened.map OpenedFile.id).Nodup
  finds : ∀ f ∈ s.opened, ∃ i desc, f.id = i + 1 ∧ f.desc = some desc ∧ Opened vol f.filename i desc ∧
    s.files.fileDescriptors i = some desc
  others : ∀ i, i < maxFileDescriptorsActive → (∀ f ∈ s.opened, f.id ≠ i + 1) → s.files.fileDescriptors i = none
  taken : Taken C r₀ s.files.ram s.blocks

variable {r₀ : Ram H} {s t : FilesState H}

theorem fileGetFd_succ (s : Files H) {i : Nat} (hi : i < maxFileDescriptorsActive) :
    s.fileGetFd ((i + 1 : Nat) : Int) = s.fileDescriptors i := by
  unfold Files.fileGetFd
  rw [if_neg (by simp only [maxFileDescriptorsActive] at *; omega)]
  congr 1

theorem fileGetFd_some {s : Files H} {fd : Int} {desc : FileDescriptor} (h : s.fileGetFd fd = some desc) :
    ∃ i, i < maxFileDescriptorsActive ∧ fd = (i + 1 : Nat) ∧ s.fileDescriptors i = some desc := by
  unfold Files.fileGetFd at h
  split at h
  · cases h
  · refine ⟨fd.toNat - 1, ?_, ?_, h⟩ <;> simp only [maxFileDescriptorsActive] at * <;> omega

/-- A list in which every id occurs once, with one file put first. -/
theorem perm_filter_id {l : List OpenedFile} (h : (l.map OpenedFile.id).Nodup) {f : OpenedFile} (hf : f ∈ l) :
    l.Perm (f :: l.filter fun g => (g.id : Int) ≠ f.id) := by
  induction l with
  | nil => cases hf
  | cons g l ih =>
    rw [List.map_cons, List.nodup_cons] at h
    rcases List.mem_cons.mp hf with rfl | hf
    · rw [List.filter_cons_of_neg (by simp), List.filter_eq_self.mpr]
      intro g hg
      have hne : g.id ≠ f.id := fun heq => h.1 (List.mem_map.mpr ⟨g, hg, heq⟩)
      simpa using hne
    · have hne : g.id ≠ f.id := fun heq => h.1 (List.mem_map.mpr ⟨f, hf, heq.symm⟩)
      rw [List.filter_cons_of_pos (by simpa using hne)]
      exact ((ih h.2 hf).cons g).trans (.swap f g _)

theorem descriptorTable_start (h : FilesStart C r₀ s) : DescriptorTable C vol r₀ s := by
  obtain ⟨hvalid, hram, hfree, hopened⟩ := h
  refine ⟨?_, ?_, fun i _ _ => hfree i, ?_⟩
  · rw [hopened]
    exact List.nodup_nil
  · rw [hopened]
    exact fun f hf => (List.not_mem_nil hf).elim
  · unfold FilesState.blocks
    rw [hram, hopened]
    exact .refl hvalid

/-- Nothing of the table changed. -/
theorem DescriptorTable.congr (h : DescriptorTable C vol r₀ s) {files : Files H}
    (htable : files.fileDescriptors = s.files.fileDescriptors) (htaken : Taken C r₀ files.ram s.blocks) :
    DescriptorTable C vol r₀ ⟨files, s.opened⟩ := by
  refine ⟨h.distinct, fun f hf => ?_, fun i hi hout => ?_, htaken⟩
  · rw [htable]
    exact h.finds f hf
  · rw [htable]
    exact h.others i hi hout

/-- An open file is in its entry of the table, and no other file is. -/
theorem DescriptorTable.entry (h : DescriptorTable C vol r₀ s) {f : OpenedFile} {i : Nat} (hf : f ∈ s.opened)
    (hid : f.id = i + 1) : ∃ desc, f.desc = some desc ∧ Opened vol f.filename i desc ∧
      s.files.fileDescriptors i = some desc := by
  obtain ⟨j, desc, hj, hdesc, hopened, hentry⟩ := h.finds f hf
  obtain rfl : i = j := by omega
  exact ⟨desc, hdesc, hopened, hentry⟩

theorem DescriptorTable.fopen (h : DescriptorTable C vol r₀ s) {filename modeStr : List UInt8}
    (hstep : FileStep A vol s (.fopen filename modeStr) t) : DescriptorTable C vol r₀ t := by
  cases hstep with
  | refused hrun =>
    rcases (fopen_spec h.taken vol _ _).returned hrun with ⟨_, htable, htaken⟩ | ⟨i, desc, hzero, _⟩
    · exact h.congr htable htaken
    · omega
  | @opened files _ _ id hrun hne =>
    rcases (fopen_spec h.taken vol _ _).returned hrun with ⟨hzero, _⟩ | ⟨i, desc, rfl, hopened, hfree, htable, htaken⟩
    · exact absurd hzero hne
    have hfound : files.fileGetFd ((i + 1 : Nat) : Int) = some desc := by
      rw [fileGetFd_succ files hopened.index, htable, Function.update_self]
    -- the entry was free, so no open file has it
    have hother : ∀ f ∈ s.opened, f.id ≠ i + 1 := by
      intro f hf hid
      obtain ⟨_, _, _, hentry⟩ := h.entry hf hid
      rw [hfree] at hentry
      cases hentry
    refine ⟨List.nodup_cons.mpr ⟨?_, h.distinct⟩, fun f hf => ?_, fun j hj hout => ?_, ?_⟩
    · rintro hmem
      obtain ⟨f, hf, hid⟩ := List.mem_map.mp hmem
      exact hother f hf hid
    · rcases List.mem_cons.mp hf with rfl | hf
      · exact ⟨i, desc, rfl, hfound, hopened, by rw [htable, Function.update_self]⟩
      · obtain ⟨j, desc', hid, hdesc, hopened', hentry⟩ := h.finds f hf
        have hji : j ≠ i := fun heq => hother f hf (heq ▸ hid)
        exact ⟨j, desc', hid, hdesc, hopened', by rw [htable, Function.update_of_ne hji]; exact hentry⟩
    · have hji : j ≠ i := fun heq => hout _ (List.mem_cons_self ..) (by rw [heq])
      rw [htable, Function.update_of_ne hji]
      exact h.others j hj fun f hf => hout f (List.mem_cons_of_mem _ hf)
    · show Taken C r₀ files.ram (((files.fileGetFd ((i + 1 : Nat) : Int)).map FileDescriptor.blocks).getD [] ++ s.blocks)
      rw [hfound]
      exact htaken

theorem DescriptorTable.fclose (h : DescriptorTable C vol r₀ s) {fd : Int} (hstep : FileStep A vol s (.fclose fd) t) :
    DescriptorTable C vol r₀ t := by
  cases hstep with
  | @closed files _ res hrun =>
    cases hfd : s.files.fileGetFd fd with
    | none =>
      -- no open file has that id
      have hopened : s.opened.filter (fun f => (f.id : Int) ≠ fd) = s.opened := by
        refine List.filter_eq_self.mpr fun f hf => ?_
        obtain ⟨i, desc, hid, _, hopened, hentry⟩ := h.finds f hf
        have hne : (f.id : Int) ≠ fd := by
          rintro rfl
          rw [hid, fileGetFd_succ s.files hopened.index, hentry] at hfd
          cases hfd
        simpa using hne
      rw [fclose_closed hfd] at hrun
      cases hrun
      rw [hopened]
      exact h
    | some desc =>
      obtain ⟨i, hi, rfl, hentry⟩ := fileGetFd_some hfd
      obtain ⟨f, hf, hid⟩ : ∃ f ∈ s.opened, f.id = i + 1 := by
        by_contra hnone
        have := h.others i hi fun f hf hid => hnone ⟨f, hf, hid⟩
        rw [hentry] at this
        cases this
      obtain ⟨desc', hdesc, hopened, hentry'⟩ := h.entry hf hid
      obtain rfl : desc = desc' := Option.some_inj.mp (hentry.symm.trans hentry')
      have hperm := perm_filter_id h.distinct hf
      rw [hid] at hperm
      have hblocks : s.blocks.Perm (desc.blocks ++
          FilesState.blocks ⟨files, s.opened.filter fun g => (g.id : Int) ≠ (i + 1 : Nat)⟩) := by
        have hflat := hperm.flatMap_right fun f => (f.desc.map FileDescriptor.blocks).getD []
        rw [List.flatMap_cons, hdesc] at hflat
        exact hflat
      obtain ⟨htable, _, htaken⟩ := (fclose_spec hfd hopened.type (h.taken.perm hblocks)).returned hrun
      rw [hopened.id, Nat.add_sub_cancel] at htable
      refine ⟨(h.distinct.sublist (List.filter_sublist.map _)), fun g hg => ?_, fun j hj hout => ?_, htaken⟩
      · obtain ⟨hg, hgid⟩ := List.mem_filter.mp hg
        obtain ⟨j, desc', hid', hdesc', hopened', hentry'⟩ := h.finds g hg
        have hji : j ≠ i := by
          rintro rfl
          simp [hid'] at hgid
        exact ⟨j, desc', hid', hdesc', hopened', by rw [htable, Function.update_of_ne hji]; exact hentry'⟩
      · rw [htable]
        by_cases hji : j = i
        · rw [hji, Function.update_self]
        · rw [Function.update_of_ne hji]
          refine h.others j hj fun g hg hgid => hout g (List.mem_filter.mpr ⟨hg, ?_⟩) hgid
          have : (g.id : Int) ≠ (i + 1 : Nat) := by omega
          simpa using this

/-! ### A full table -/

/-- With 512 files open every id is taken. -/
theorem DescriptorTable.all_taken (h : DescriptorTable C vol r₀ s) (hlen : s.opened.length = maxFileDescriptorsActive) :
    s.files.freeIndex = none := by
  have hsub : (s.opened.map OpenedFile.id).toFinset ⊆ Finset.Icc 1 maxFileDescriptorsActive := by
    intro id hid
    obtain ⟨f, hf, rfl⟩ := List.mem_map.mp (List.mem_toFinset.mp hid)
    obtain ⟨i, desc, hid, _, hopened, _⟩ := h.finds f hf
    have hi := hopened.index
    rw [Finset.mem_Icc]
    omega
  have hall : (s.opened.map OpenedFile.id).toFinset = Finset.Icc 1 maxFileDescriptorsActive := by
    refine Finset.eq_of_subset_of_card_le hsub ?_
    rw [List.toFinset_card_of_nodup h.distinct, List.length_map, hlen, Nat.card_Icc]
    exact Nat.le_refl _
  unfold Files.freeIndex
  refine List.find?_eq_none.mpr fun i hi => ?_
  have hid : i + 1 ∈ (s.opened.map OpenedFile.id).toFinset := by
    rw [hall, Finset.mem_Icc]
    have := List.mem_range.mp hi
    omega
  obtain ⟨f, hf, hfid⟩ := List.mem_map.mp (List.mem_toFinset.mp hid)
  obtain ⟨desc, _, _, hentry⟩ := h.entry hf hfid
  simp [hentry]

/-- What `fopen` does up to the descriptor does not depend on the table. -/
theorem fopen_full {s : Files H} (hfree : s.freeIndex = none) (filename modeStr : List UInt8)
    (hreturns : ∃ out, fopen A vol filename modeStr {s with fileDescriptors := fun _ => none} = .ok out) :
    ∃ ram, fopen A vol filename modeStr s = .ok (0, {s with ram := ram}) := by
  obtain ⟨out, hout⟩ := hreturns
  obtain ⟨root, s₁, hparse, hout⟩ := bind_ok.mp hout
  obtain ⟨_, ram₁, hparsed, hs₁⟩ := zoom_ok.mp hparse
  cases hs₁
  obtain ⟨res, s₂, hopen, _⟩ := bind_ok.mp hout
  obtain ⟨_, ram₂, hopened, hs₂⟩ := zoom_ok.mp hopen
  cases hs₂
  have hparse' : inRam (pparserParse A filename) s = .ok (root, {s with ram := ram₁}) :=
    zoom_ok.mpr ⟨root, ram₁, hparsed, rfl⟩
  have hopen' : inRam (openPath A vol root modeStr) {s with ram := ram₁} = .ok (res, {s with ram := ram₂}) :=
    zoom_ok.mpr ⟨res, ram₂, hopened, rfl⟩
  refine ⟨ram₂, bind_ok.mpr ⟨root, _, hparse', bind_ok.mpr ⟨res, _, hopen', ?_⟩⟩⟩
  cases res with
  | error e => rfl
  | ok file =>
    simp only
    split
    · rfl
    · have hnew : fileNewDescriptor A file {s with ram := ram₂} = .ok (-enomem, {s with ram := ram₂}) := by
        unfold fileNewDescriptor
        rw [bind_apply, get_apply]
        simp only [show Files.freeIndex {s with ram := ram₂} = none from hfree]
        rfl
      rw [bind_apply, hnew]
      rfl

/-- **The descriptor table is sound in every state of a run**: the open ids are different,
each finds the descriptor its own `fopen` made, no other number finds one, and a full table
opens nothing. -/
theorem descriptors_sound {s : FilesState H} (hrun : FilesRun C vol r₀ s) : DescriptorsSound C vol s := by
  have htable : DescriptorTable C vol r₀ s := by
    refine hrun.invariant (fun s hs => descriptorTable_start hs) fun s op t h _ hstep => ?_
    cases op with
    | fopen filename modeStr => exact h.fopen hstep
    | fclose fd => exact h.fclose hstep
  refine ⟨htable.distinct, fun f hf => ?_, fun f hf => ?_, fun fd hout => ?_, ⟨htable.taken.nodup, fun b hb =>
    (htable.taken.fresh b hb).2⟩, fun hlen filename modeStr => ⟨fun fd files hopen => ?_, fun hreturns => ?_⟩⟩
  · obtain ⟨i, desc, hid, _, hopened, _⟩ := htable.finds f hf
    have hi := hopened.index
    omega
  · obtain ⟨i, desc, hid, hdesc, hopened, hentry⟩ := htable.finds f hf
    exact ⟨desc, hdesc, by rw [hid, fileGetFd_succ s.files hopened.index, hentry], by rw [hopened.id, hid],
      hopened.names⟩
  · cases hfd : s.files.fileGetFd fd with
    | none => rfl
    | some desc =>
      obtain ⟨i, hi, rfl, hentry⟩ := fileGetFd_some hfd
      have hnone := htable.others i hi fun f hf hid => hout f hf (by rw [hid])
      rw [hentry] at hnone
      cases hnone
  · rcases (fopen_spec htable.taken vol filename modeStr).returned hopen with ⟨hzero, _⟩ | ⟨i, desc, _, hopened, hfree, _⟩
    · exact hzero
    · have hfull := htable.all_taken hlen
      unfold Files.freeIndex at hfull
      have := List.find?_eq_none.mp hfull i (List.mem_range.mpr hopened.index)
      rw [hfree] at this
      exact absurd rfl this
  · exact fopen_full (htable.all_taken hlen) filename modeStr hreturns

/-! ### One file -/

/-- A volume whose root directory has one file, `X`. -/
def oneFileVolume : Volume where
  disk := fun _ => 0
  mounted := some ⟨fatHeader fun _ => 0, [⟨[0x58, 0x20, 0x20, 0x20, 0x20, 0x20, 0x20, 0x20], [0x20, 0x20, 0x20],
    0, 0, 0, 0, 0, 0, 0, 0, 0, 2, 5⟩], 1, 0, 0⟩

/-- `0:/x`. -/
def pathX : List UInt8 := [0x30, 0x3A, 0x2F, 0x78]

def noFiles : Files Ladder := ⟨⟨⟨0, []⟩, fun _ => 0⟩, fun _ => none⟩

theorem noFiles_valid : ladderContract.Valid noFiles.ram.heap := ladder_sound

theorem fopen_pathX : ∃ files, fopen ladder oneFileVolume pathX [0x72] noFiles = .ok (1, files) :=
  result_eq_some (by decide +kernel)

/-- `X` is opened twice, the first of the two closed, and `X` opened again. -/
def reopenX : Program Stop (Files Ladder) (Nat × Nat × Int × Nat) := do
  let fd ← fopen ladder oneFileVolume pathX [0x72]
  let fd' ← fopen ladder oneFileVolume pathX [0x72]
  let res ← fclose ladder 1
  return (fd, fd', res, ← fopen ladder oneFileVolume pathX [0x72])

/-- The number that was closed is given out again. -/
theorem reopenX_returns : ∃ files, reopenX noFiles = .ok ((1, 2, 0, 1), files) := result_eq_some (by decide +kernel)

/-- The table after these four calls. -/
theorem descriptors_sound_reopened : ∃ files desc desc' opened,
    opened = [⟨1, desc, pathX⟩, ⟨2, desc', pathX⟩] ∧ DescriptorsSound ladderContract oneFileVolume ⟨files, opened⟩ := by
  obtain ⟨files, hrun⟩ := reopenX_returns
  obtain ⟨fd, files₁, hfirst, hrun⟩ := bind_ok.mp hrun
  obtain ⟨fd', files₂, hsecond, hrun⟩ := bind_ok.mp hrun
  obtain ⟨res, files₃, hclose, hrun⟩ := bind_ok.mp hrun
  obtain ⟨fd'', files₄, hthird, hret⟩ := bind_ok.mp hrun
  cases hret
  have hstart : FilesStart ladderContract noFiles.ram ⟨noFiles, []⟩ := ⟨noFiles_valid, rfl, fun _ => rfl, rfl⟩
  have hopened : FilesRun ladderContract oneFileVolume noFiles.ram
      ⟨files₂, [⟨2, files₂.fileGetFd 2, pathX⟩, ⟨1, files₁.fileGetFd 1, pathX⟩]⟩ :=
    .step (.step (.start hstart) trivial (.opened hfirst (by decide))) trivial (.opened hsecond (by decide))
  have hclosed := hopened.step trivial (.closed hclose)
  exact ⟨_, _, _, _, rfl, descriptors_sound (hclosed.step trivial (.opened hthird (by decide)))⟩

end BasicOS

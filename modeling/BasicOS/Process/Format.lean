import BasicOS.Process.Image

/-! The format of a loaded program.

`process_load_data` makes an ELF process only of a file that `elf_load` accepted; what it makes of
the others is a flat binary, or nothing. A file that has the bytes it is refused by is accepted
wherever it is read to never (`processLoad_refused`), which is not so of a file that is too short for
the checks. -/
namespace BasicOS
open Lib Program

variable {H : Type} {A : Allocator H} {C : Contract A} {vol : Volume} {filename : List UInt8} {s t : Kernel H}
  {process : Nat}

/-- Whatever the path names is refused by bytes it has. -/
def Volume.Refuses (vol : Volume) (filename : List UInt8) : Prop :=
  ∀ record, vol.Names filename record → RefusedElf (fileRead vol record)

/-- `process` is a flat binary. -/
def IsFlat (process : Nat) (s : Kernel H) : Prop :=
  ∃ P, s.process process = some P ∧ P.filetype = processFormatFbin

/-! ### The file that is read -/

/-- What `elf_load` reads is the file the path names. -/
theorem elfRead_spec (hvalid : C.Valid s.ram.heap) : Ensures (elfRead A vol filename) (fun out t =>
    ∀ p n, out = .ok (p, n) → ∃ record, n = record.fileSize ∧ HoldsFile C vol filename t.ram p record) s := by
  unfold elfRead
  refine wp.bind (Ensures.onRam ((Taken.refl hvalid).kzalloc _)) fun elfFile t ht => ?_
  obtain ⟨r₁, rfl, helf⟩ := ht
  split
  · intro p n hout
    cases hout
  rename_i hne
  rcases helf with ⟨hnull, _⟩ | ⟨_, h₁, _, _⟩
  · exact absurd hnull hne
  rw [wp_bind, wp_modify]
  refine wp.bind (Ensures.onFiles (fopen_spec (s := {s.files with ram := r₁}) h₁ vol filename [0x72]))
    fun res t ht => ?_
  obtain ⟨files, rfl, hopen⟩ := ht
  split
  · intro p n hout
    cases hout
  rename_i hpos
  rcases hopen with ⟨rfl, _, _⟩ | ⟨i, desc, rfl, hopened, hfree, htable, h₂⟩
  · exact absurd (by decide) hpos
  rw [s32_fd hopened.index]
  have hfd : files.fileGetFd (i + 1 : Nat) = some desc :=
    fileGetFd_opened hopened.index (by rw [htable, Function.update_self])
  refine (elfFetch_spec (E := zeroElfFile) (Function.update_self ..) hfd hopened h₂).mono fun out t ht => ?_
  obtain ⟨p, ram, rfl, ⟨res, rfl, _, _⟩ | ⟨rfl, _, hholds⟩⟩ := ht
  · intro p n hout
    cases hout
  · intro q n hout
    cases hout
    exact ⟨_, rfl, hholds⟩

theorem ElfReads.named {u : Kernel H} {p : Nat} {file : List UInt8} (hvalid : C.Valid s.ram.heap)
    (h : ElfReads A vol filename s u p file) : ∃ record, vol.Names filename record ∧ file = fileRead vol record := by
  obtain ⟨n, hrun, rfl⟩ := h
  obtain ⟨record, rfl, hholds⟩ := (elfRead_spec hvalid).returned hrun p n rfl
  refine ⟨record, hholds.names, ?_⟩
  unfold fileRead
  exact List.map_congr_left fun i hi => hholds.bytes i (List.mem_range.mp hi)

/-- A file that has the bytes it is refused by is not accepted. -/
theorem elfLoad_refused (hvalid : C.Valid s.ram.heap) (hrefuses : vol.Refuses filename) (fd : Int) :
    Ensures (elfLoad A vol fd filename) (fun out _ => out.1 < 0) s := by
  refine (elfLoad_verdict hvalid fd).mono fun out t ht => ?_
  rcases ht with ⟨hneg, _⟩ | ⟨u, file, F, hreads, himage, hres⟩
  · exact hneg
  · obtain ⟨record, hnames, rfl⟩ := hreads.named hvalid
    rw [hres]
    exact not_le.mp (himage.not_accepted (hrefuses record hnames))

/-! ### The process -/

theorem processLoadData_isFlat {fd : Int} {P : Process} (hvalid : C.Valid s.ram.heap)
    (hrefuses : vol.Refuses filename) (hP : s.process process = some P) :
    Ensures (processLoadData A vol fd filename process) (fun res t => res < 0 ∨ IsFlat process t) s := by
  unfold processLoadData processLoadElf
  rw [Ensures, wp_bind]
  refine wp.bind ((elfLoad_spec fd (Taken.refl hvalid)).and (elfLoad_refused hvalid hrefuses fd)) fun out t ht => ?_
  obtain ⟨res, elfFile⟩ := out
  obtain ⟨hloaded, hneg⟩ := ht
  simp only at hneg hloaded ⊢
  rw [if_pos hneg, wp_pure]
  rcases hloaded with ⟨rfl, _⟩ | ⟨_, r₁, e, F, rfl, ⟨_, h₁⟩ | ⟨hout, _⟩⟩
  · exact .inl hneg
  · have hP' : ((s.withRam r₁).putElfFile e (some F)).process process = some P := hP
    split
    · refine (processLoadBinary_spec hP' h₁).mono fun res' t' ht => ?_
      obtain ⟨ram, ⟨hneg', _, _⟩ | ⟨_, ptr, record, rfl, _, _⟩⟩ := ht
      · exact .inl hneg'
      · exact .inr ⟨_, Function.update_self .., rfl⟩
    · exact .inl hneg
  · cases hout
    exact absurd hneg (by decide)

theorem preserves_onRam {B : Type} (x : Program Stop (Ram H) B) : Preserves (onRam x) (IsFlat process) :=
  fun _ hflat => (Ensures.onRam (Ensures.self x _)).mono fun _ t ht => by
    obtain ⟨ram, rfl, _⟩ := ht
    exact hflat

theorem preserves_onTasks {B : Type} (x : Program Stop TaskList B) :
    Preserves (onTasks x : Program Stop (Kernel H) B) (IsFlat process) :=
  fun _ hflat => (Ensures.onTasks (Ensures.self x _)).mono fun _ t ht => by
    obtain ⟨tasks, rfl, _⟩ := ht
    exact hflat

/-- A change of other fields of the process. -/
theorem preserves_change {f : Process → Process} (hf : ∀ P, (f P).filetype = P.filetype) : Preserves
    (do
      let p ← loadProcess process
      storeProcess process (f p) : Program Stop (Kernel H) Unit) (IsFlat process) := by
  rintro s ⟨P, hP, hflat⟩
  rw [wp_bind, wp_loadProcess hP, wp_storeProcess hP]
  exact ⟨_, Function.update_self .., (hf P).trans hflat⟩

theorem preserves_programEntry : Preserves (programEntry process : Program Stop (Kernel H) Nat) (IsFlat process) :=
  fun s hflat => (programEntry_spec process s).mono fun _ _ ht => ht ▸ hflat

theorem preserves_newTask : Preserves (newTask A process) (IsFlat process) := by
  unfold newTask
  refine (preserves_onRam _).bind fun task => Preserves.bind (.when (preserves_stop _)) fun _ => ?_
  exact (preserves_onRam _).bind fun _ => preserves_programEntry.bind fun _ => preserves_onTasks _

theorem preserves_mapInTask (task vAddr pAddr pAddrEnd : Nat) (flags : Int) :
    Preserves (mapInTask task vAddr pAddr pAddrEnd flags : Program Stop (Kernel H) Int) (IsFlat process) :=
  (preserves_onTasks _).bind fun _ => preserves_onRam _

theorem preserves_loadProcess : Preserves (loadProcess process : Program Stop (Kernel H) Process) (IsFlat process) :=
  fun s hflat => (loadProcess_spec process s).mono fun _ _ ht => ht.1 ▸ hflat

theorem preserves_loadElfFile (elfFile : Nat) :
    Preserves (loadElfFile elfFile : Program Stop (Kernel H) ElfFile) (IsFlat process) := by
  intro s hflat
  cases hF : s.elfFile elfFile with
  | none => exact (wp_error (by unfold loadElfFile; rw [hF])).mpr trivial
  | some F => exact (wp_loadElfFile hF).mpr hflat

theorem preserves_processMapMemory :
    Preserves (processMapMemory process : Program Stop (Kernel H) Int) (IsFlat process) := by
  have helf : Preserves (processMapElf process : Program Stop (Kernel H) Int) (IsFlat process) :=
    preserves_loadProcess.bind fun _ => (preserves_loadElfFile _).bind fun _ =>
      (preserves_onTasks _).bind fun _ => preserves_onRam _
  have hbinary : Preserves (processMapBinary process : Program Stop (Kernel H) Int) (IsFlat process) :=
    preserves_loadProcess.bind fun _ => (preserves_mapInTask _ _ _ _ _).bind fun _ => preserves_pure _
  have hrest : ∀ res : Int, Preserves (if res < 0 then return res else do
      let p ← loadProcess process
      let _ ← mapInTask p.task bkeTaskProgramVirtualStackAddrEnd p.stack
        (pagingAlignAddress (u32 (p.stack + bkeTaskUserStackSize))) flagsWritable
      return res : Program Stop (Kernel H) Int) (IsFlat process) := fun res =>
    (preserves_pure _).ite (preserves_loadProcess.bind fun _ => (preserves_mapInTask _ _ _ _ _).bind fun _ => preserves_pure _)
  unfold processMapMemory
  exact preserves_loadProcess.bind fun P => (helf.bind hrest).ite ((hbinary.bind hrest).ite (preserves_pure _))

/-- The rest of a load keeps the format that was found. -/
theorem loadInto_isFlat {fd : Int} {slot : Int} {P : Process} (hvalid : C.Valid s.ram.heap)
    (hrefuses : vol.Refuses filename) (hP : s.process process = some P) :
    Ensures (loadInto A vol fd filename slot process) (fun out t => out.1 < 0 ∨ out.2 = false ∨ IsFlat process t) s := by
  unfold loadInto
  refine wp.bind (processLoadData_isFlat hvalid hrefuses hP) fun res t ht => ?_
  split
  · exact .inl ‹_›
  rename_i hpos
  refine wp.bind (preserves_onRam _ t (ht.resolve_left hpos)) fun stack t ht => ?_
  split
  · exact .inl (by decide)
  rw [← bind_assoc]
  refine wp.bind (preserves_change (f := fun p => {p with
    stack := stack, filename := filename.take (fsMaxPathLen - 1), id := u32OfInt slot}) (fun P => rfl) t ht) fun _ t ht => ?_
  refine wp.bind (preserves_newTask t ht) fun task t ht => ?_
  split
  · exact .inr (.inl rfl)
  rw [← bind_assoc]
  refine wp.bind (preserves_change (f := fun p => {p with task := task}) (fun P => rfl) t ht) fun _ t ht => ?_
  exact wp.bind (preserves_processMapMemory t ht) fun _ t ht => .inr (.inr ht)

theorem processLoadForSlot_isFlat {junk : Uninitialised} {slot : Int} (hvalid : C.Valid s.ram.heap)
    (hrefuses : vol.Refuses filename) :
    Ensures (processLoadForSlot A vol junk filename slot) (fun out t => ∀ p, out = (0, some p) → IsFlat p t) s := by
  unfold processLoadForSlot
  rw [Ensures, wp_bind, wp_get]
  split
  · refine Ensures.after (fun _ _ => ?_) s
    intro p hout
    cases hout
  refine wp.bind (Ensures.onRam ((Taken.refl hvalid).kzalloc _)) fun process t ht => ?_
  obtain ⟨r, rfl, hprocess⟩ := ht
  split
  · intro p hout
    cases hout
  rename_i hne
  rcases hprocess with ⟨hnull, _⟩ | ⟨_, htaken, _⟩
  · exact absurd hnull hne
  rw [wp_bind, wp_modify]
  refine wp.bind (loadInto_isFlat (s := (s.withRam r).putProcess process (some zeroProcess)) htaken.valid hrefuses
    (Function.update_self ..)) fun out t ht => ?_
  obtain ⟨res, made⟩ := out
  simp only at ht ⊢
  split
  · refine Ensures.after (fun _ _ => ?_) t
    intro p hout
    cases hout
  split
  · intro p hout
    cases hout
  rename_i hpos hmade
  have hflat := (ht.resolve_left hpos).resolve_left (by simpa using hmade)
  unfold setProcess
  rw [wp_bind, wp_bind, wp_when]
  refine ⟨fun _ => trivial, fun _ p hout => ?_⟩
  cases hout
  exact hflat

/-- **A file that is refused by its own bytes is loaded as a flat binary**, if it is loaded. -/
theorem processLoadSwitch_isFlat {junk : Uninitialised} {p : Nat} (hvalid : C.Valid s.ram.heap)
    (hrefuses : vol.Refuses filename) (hload : processLoadSwitch A vol junk filename s = .ok ((0, some p), t)) :
    IsFlat p t := by
  have hspec : Ensures (processLoad A vol junk filename) (fun out t => ∀ p, out = (0, some p) → IsFlat p t) s := by
    unfold processLoad
    rw [Ensures, wp_bind, wp_get]
    dsimp only
    split
    · intro p hout
      cases hout
    · exact processLoadForSlot_isFlat hvalid hrefuses
  have hswitch : Ensures (processLoadSwitch A vol junk filename) (fun out t => ∀ p, out = (0, some p) → IsFlat p t) s := by
    unfold processLoadSwitch
    refine wp.bind hspec fun out t ht => ?_
    rw [wp_bind, wp_when]
    exact ⟨fun _ => ht, fun _ => ht⟩
  exact hswitch.returned hload p rfl

end BasicOS

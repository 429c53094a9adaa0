import BasicOS.Process.Residents

/-! What every load establishes.

Up to its new task a load leaves the task list as it is. A property of a new process begins when `task_new` has
answered, and the rest of the load has to leave it: the image and the stack are mapped, which changes the tables of
the directory and nothing else, and the process is entered in the table. So a property with these three parts
(`AtLoad`) holds of every process that was loaded (`processLoad_establishes`, `processLoadSwitch_establishes`). -/
namespace BasicOS
open Lib Program

variable {H : Type} {A : Allocator H} {C : Contract A} {r₀ : Ram H} {xs : List Nat} {vol : Volume} {filename : List UInt8}
  {s : Kernel H} {P : Process} {process : Nat} {l : TaskList} {Φ : Kernel H → Nat → Prop}

/-! ### Before the task is made -/

section Data

variable {B : Type}

/-- The task list is `l`. -/
def Kernel.Lists (l : TaskList) (s : Kernel H) : Prop := s.taskList = l

theorem lists_onFiles (x : Program Stop (Files H) B) : Preserves (onFiles x) (Kernel.Lists l) := by
  intro s hs
  refine (Ensures.onFiles (Ensures.self x s.files)).mono ?_
  rintro _ _ ⟨_, rfl, _⟩
  exact hs

theorem lists_onRam (x : Program Stop (Ram H) B) : Preserves (onRam x) (Kernel.Lists l) := by
  intro s hs
  refine (Ensures.onRam (Ensures.self x s.ram)).mono ?_
  rintro _ _ ⟨_, rfl, _⟩
  exact hs

theorem lists_loadProcess (process : Nat) : Preserves (loadProcess process) (Kernel.Lists (H := H) l) := by
  intro s hs
  refine (loadProcess_spec process s).mono ?_
  rintro _ _ ⟨rfl, _⟩
  exact hs

theorem lists_storeProcess (process : Nat) (P : Process) : Preserves (storeProcess process P) (Kernel.Lists (H := H) l) := by
  intro s hs
  cases h : s.process process with
  | none => exact (wp_error (by unfold storeProcess; rw [h])).mpr trivial
  | some _ => exact (wp_storeProcess h).mpr hs

theorem lists_loadElfFile (elfFile : Nat) : Preserves (loadElfFile elfFile) (Kernel.Lists (H := H) l) := by
  intro s hs
  cases h : s.elfFile elfFile with
  | none => exact (wp_error (by unfold loadElfFile; rw [h])).mpr trivial
  | some _ => exact (wp_loadElfFile h).mpr hs

theorem lists_storeElfFile (elfFile : Nat) (F : ElfFile) : Preserves (storeElfFile elfFile F) (Kernel.Lists (H := H) l) := by
  intro s hs
  cases h : s.elfFile elfFile with
  | none => exact (wp_error (by unfold storeElfFile; rw [h])).mpr trivial
  | some _ => exact (wp_storeElfFile h).mpr hs

theorem lists_elfReadFile (elfFile : Nat) (fd : Int) : Preserves (elfReadFile A vol elfFile fd) (Kernel.Lists l) := by
  unfold elfReadFile
  refine (lists_onFiles _).bind fun ⟨res, fileSize⟩ => Preserves.ite (preserves_pure _) ?_
  refine (lists_onRam _).bind fun elfMemory => (lists_loadElfFile _).bind fun f => (lists_storeElfFile _ _).bind fun _ => ?_
  refine Preserves.ite (preserves_pure _) ((lists_onFiles _).bind fun res => Preserves.ite (preserves_pure _) ?_)
  exact (lists_loadElfFile _).bind fun _ => preserves_get.bind fun _ => (lists_storeElfFile _ _).bind fun _ =>
    preserves_pure _

theorem lists_elfLoad (fd : Int) : Preserves (elfLoad A vol fd filename) (Kernel.Lists l) := by
  unfold elfLoad
  have hmade : ∀ elfFile, Preserves (modify fun s => s.putElfFile elfFile (some zeroElfFile) : Program Stop (Kernel H) Unit)
      (Kernel.Lists l) := fun _ => preserves_modify fun _ h => h
  refine (lists_onRam _).bind fun elfFile => Preserves.ite ((lists_onFiles _).bind fun _ => preserves_pure _) ?_
  refine (hmade elfFile).bind fun _ => (lists_onFiles _).bind fun res => ?_
  refine Preserves.ite ((lists_onFiles _).bind fun _ => preserves_pure _) ?_
  exact (lists_elfReadFile _ _).bind fun _ => (lists_onFiles _).bind fun _ => preserves_pure _

theorem lists_processLoadBinary (process : Nat) :
    Preserves (processLoadBinary A vol filename process) (Kernel.Lists l) := by
  unfold processLoadBinary readBinary
  refine (lists_onFiles _).bind fun _ => Preserves.ite ((lists_onFiles _).bind fun _ => preserves_pure _)
    (Preserves.bind ?_ fun _ => (lists_onFiles _).bind fun _ => preserves_pure _)
  refine (lists_onFiles _).bind fun _ => Preserves.ite (preserves_pure _) ?_
  refine (lists_onRam _).bind fun _ => Preserves.ite (preserves_pure _) ?_
  refine (lists_onFiles _).bind fun _ => Preserves.ite (preserves_pure _) ?_
  exact (lists_loadProcess _).bind fun _ => (lists_storeProcess _ _).bind fun _ => preserves_pure _

/-- Reading the file leaves the task list. -/
theorem lists_processLoadData (fd : Int) (process : Nat) :
    Preserves (processLoadData A vol fd filename process) (Kernel.Lists l) := by
  unfold processLoadData processLoadElf
  refine Preserves.bind ?_ fun _ => Preserves.ite (lists_processLoadBinary process) (preserves_pure _)
  refine (lists_elfLoad fd).bind fun _ => Preserves.ite (preserves_pure _) ?_
  exact (lists_loadProcess _).bind fun _ => (lists_storeProcess _ _).bind fun _ => preserves_pure _

end Data

/-- A process before its task is made. Its stack is there, all of it zero, and the task list is `l`. -/
structure Stacked (C : Contract A) (l : TaskList) (s : Kernel H) (process : Nat) (P : Process) : Prop where
  made : s.process process = some P
  tasks : s.Lists l
  valid : C.Valid s.ram.heap
  live : C.pages s.ram P.stack ≠ 0
  room : bkeTaskUserStackSize ≤ C.pages s.ram P.stack * heapBlockSize
  zero : ∀ i, i < bkeTaskUserStackSize → s.ram.mem (P.stack + i) = 0

/-- A property that a process has with its new task, and keeps while the rest of the load is done. -/
structure AtLoad (C : Contract A) (vol : Volume) (filename : List UInt8) (l : TaskList) (Φ : Kernel H → Nat → Prop) :
    Prop where
  new : ∀ s process P, Stacked C l s process P →
    Ensures (newTask A process) (fun task t => Φ (t.putProcess process (some {P with task := task})) process) s
  mapped : ∀ (s : Kernel H) (mem : Memory) process P other D chunk r₀ xs, s.process process = some P →
    Unmapped C vol filename D chunk s P other →
    Taken C r₀ s.ram (D.blocks chunk ++ P.task :: P.stack :: P.ptr :: other :: xs) →
    D.SameElsewhere s.ram.mem mem → Φ s process → Φ (s.withRam {s.ram with mem := mem}) process
  entered : ∀ (s : Kernel H) processes current process, Φ s process →
    Φ {s with processes := processes, currentProcess := current} process

theorem loadUnmapped_establishes {fd slot : Int} (hΦ : AtLoad C vol filename s.taskList Φ) (hP : s.process process = some P)
    (h : Taken C r₀ s.ram xs) :
    Ensures (loadUnmapped A vol fd filename slot process) (fun out t => out = none → Φ t process) s := by
  unfold loadUnmapped
  refine wp.bind ((processLoadData_spec hP h).and (lists_processLoadData fd process s rfl)) fun res t ht => ?_
  obtain ⟨ht, htasks⟩ := ht
  rcases ht with ⟨rfl, _⟩ | ⟨_, _, other, hdata⟩
  · rw [if_pos (by decide)]
    exact fun hnone => by cases hnone
  rcases hdata with ⟨hneg, _⟩ | ⟨rfl, P', hP', _, _, h₁⟩
  · rw [if_pos hneg]
    exact fun hnone => by cases hnone
  rw [if_neg (by decide)]
  refine wp.bind (Ensures.onRam ((Taken.refl h₁.valid).kzalloc _)) fun stack u hu => ?_
  obtain ⟨r₂, rfl, hmemory⟩ := hu
  split
  · exact fun hnone => by cases hnone
  rename_i hne
  rcases hmemory with ⟨hnull, _⟩ | ⟨_, h₂, hroom, hzero⟩
  · exact absurd hnull hne
  rw [wp_bind]
  refine (wp_loadProcess (s := t.withRam r₂) hP').mpr ?_
  rw [wp_bind]
  refine (wp_storeProcess (s := t.withRam r₂) hP').mpr ?_
  generalize hP₂ : ({P' with stack := stack, filename := filename.take (fsMaxPathLen - 1), id := u32OfInt slot} : Process) = P₂
  have hstacked : Stacked C s.taskList ((t.withRam r₂).putProcess process (some P₂)) process P₂ := by
    subst hP₂
    refine ⟨Function.update_self .., htasks, h₂.valid, (h₂.fresh stack (List.mem_singleton_self _)).2, hroom, fun i hi => ?_⟩
    show r₂.mem (stack + i) = 0
    rw [hzero]
    exact if_pos ⟨Nat.le_add_right stack i, Nat.add_lt_add_left hi stack⟩
  generalize (t.withRam r₂).putProcess process (some P₂) = u at hstacked
  refine wp.bind ((newTask_spec (Taken.refl hstacked.valid)).and (hΦ.new u process P₂ hstacked)) fun task v hv => ?_
  obtain ⟨⟨_, _, r₃, tasks, _, rfl, _⟩, hhas⟩ := hv
  split
  · exact fun hnone => by cases hnone
  rw [wp_bind]
  refine (wp_loadProcess (by exact hstacked.made)).mpr ?_
  rw [wp_bind]
  refine (wp_storeProcess (by exact hstacked.made)).mpr ?_
  exact fun _ => hhas

theorem loadInto_establishes {fd slot : Int} (hΦ : AtLoad C vol filename s.taskList Φ) (hP : s.process process = some P)
    (hnull : P.task = 0 ∧ P.stack = 0 ∧ P.ptr = 0) (h : Taken C r₀ s.ram xs) :
    Ensures (loadInto A vol fd filename slot process) (fun out t => out.2 = true → Φ t process) s := by
  rw [loadInto_eq]
  refine wp.bind ((loadUnmapped_spec hP hnull h).and (loadUnmapped_establishes hΦ hP h)) fun out t ht => ?_
  obtain ⟨ht, hhas⟩ := ht
  rcases ht with ⟨rfl, _⟩ | ⟨_, _, P', other, hP', _, hcases⟩
  · exact fun hmade => by cases hmade
  rcases hcases with ⟨res, rfl, _⟩ | ⟨rfl, _, D, chunk, hunmapped, h₁⟩
  · exact fun hmade => by cases hmade
  refine wp.bind (processMapMemory_spec hP' hunmapped) fun res v hv => ?_
  obtain ⟨mem, entry, rfl, hsame, _⟩ := hv
  exact fun _ => hΦ.mapped t mem process P' other D chunk r₀ xs hP' hunmapped h₁ hsame (hhas rfl)

theorem processLoadForSlot_establishes (hΦ : AtLoad C vol filename s.taskList Φ) (junk : Uninitialised) (slot : Int)
    (hvalid : C.Valid s.ram.heap) (hfree : s.getProcess slot = 0) :
    Ensures (processLoadForSlot A vol junk filename slot) (fun out t =>
      0 ≤ out.1 → ∀ process, out.2 = some process → Φ t process) s := by
  unfold processLoadForSlot
  rw [Ensures, wp_bind, wp_get, hfree, if_neg (by decide)]
  refine wp.bind (Ensures.onRam ((Taken.refl hvalid).kzalloc _)) fun process t ht => ?_
  obtain ⟨r, rfl, hprocess⟩ := ht
  split
  · exact fun hpos => absurd hpos (by decide)
  rename_i hne
  rcases hprocess with ⟨hnull, _⟩ | ⟨_, h₁, _⟩
  · exact absurd hnull hne
  rw [wp_bind, wp_modify]
  have hself : ((s.withRam r).putProcess process (some zeroProcess)).process process = some zeroProcess :=
    Function.update_self ..
  refine wp.bind (loadInto_establishes hΦ hself ⟨rfl, rfl, rfl⟩ h₁) fun out t hhas => ?_
  obtain ⟨res, made⟩ := out
  dsimp only
  split
  · rename_i hneg
    rw [wp_bind]
    exact wp.mono (Ensures.self _ _) (fun _ _ _ hpos => absurd hneg (not_lt_of_ge hpos)) fun _ _ => trivial
  cases made with
  | false => exact fun _ _ hnone => by cases hnone
  | true =>
    unfold setProcess
    rw [Bool.not_true, if_neg Bool.false_ne_true, wp_bind, wp_bind, wp_when]
    refine ⟨fun _ => trivial, fun _ => ?_⟩
    rw [wp_modify]
    rintro _ _ ⟨⟩
    exact hΦ.entered t _ t.currentProcess process (hhas rfl)

/-- **What a load establishes holds of every process that was loaded.** -/
theorem processLoad_establishes (hΦ : AtLoad C vol filename s.taskList Φ) (junk : Uninitialised) (hvalid : C.Valid s.ram.heap) :
    Ensures (processLoad A vol junk filename) (fun out t =>
      0 ≤ out.1 → ∀ process, out.2 = some process → Φ t process) s := by
  unfold processLoad
  rw [Ensures, wp_bind, wp_get]
  dsimp only
  split
  · exact fun hpos => absurd hpos (by decide)
  rename_i hslot
  exact processLoadForSlot_establishes hΦ junk _ hvalid (getProcess_freeSlot hslot)

theorem processLoadSwitch_establishes (hΦ : AtLoad C vol filename s.taskList Φ) (junk : Uninitialised)
    (hvalid : C.Valid s.ram.heap) : Ensures (processLoadSwitch A vol junk filename) (fun out t =>
      0 ≤ out.1 → ∀ process, out.2 = some process → Φ t process) s := by
  unfold processLoadSwitch
  refine wp.bind (processLoad_establishes hΦ junk hvalid) fun out t hhas => ?_
  rw [wp_bind, wp_when]
  exact ⟨fun _ hpos process hprocess => hΦ.entered t t.processes _ process (hhas hpos process hprocess), fun _ => hhas⟩

end BasicOS

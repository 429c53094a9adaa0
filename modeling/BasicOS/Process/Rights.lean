import BasicOS.Process.Loaded
import BasicOS.Process.Programs

/-! What the processor lets a program do.

`paging.c` keeps the words of pages in tables, and a directory whose words are open to user mode. The
processor asks both. In every state that programs at work reach, the directory of a live process is still as
`_gen_paging_4gb` left it, so the word of a page alone decides (`userWritable_iff`). What a process has
allocated it can write (`allocation_usable`), a store changes nothing but its own blocks (`store_private`),
and nothing it has is changed by another (`others_leave_alone`). -/
namespace BasicOS
open Lib Program

variable {H : Type} {A : Allocator H} {C : Contract A} {L L' : Ledger} {p q : Nat} {sp sq : Space} {P : Process}
  {held : Nat → Prop}

/-! ### Open directories -/

/-- Every word of the directory is present, writable and user-accessible. -/
def OpenDirectory (mem : Memory) (directory : Nat) : Prop := ∀ i, i < 1024 → read32 mem (directory + 4 * i) % 8 = 7

/-- The directory of the process is open. -/
def Kernel.Opens (s : Kernel H) (p : Nat) : Prop := ∃ directory, s.directoryOf p = some directory ∧
  OpenDirectory s.ram.mem directory

theorem OpenDirectory.congr {mem mem' : Memory} {directory : Nat} (h : OpenDirectory mem directory)
    (hsame : ∀ a, directory ≤ a → a < directory + pagingPageSize → mem' a = mem a) : OpenDirectory mem' directory := by
  intro i hi
  rw [read32_congr fun a h1 h2 => hsame a (by omega) (by simp only [pagingPageSize]; omega)]
  exact h i hi

section Pages

variable {D : DirectoryBlocks} {entry : Nat → Nat} {mem : Memory} {v page : Nat}

/-- A page that a writable word gives. -/
theorem Tables.writable_page (h : Tables D entry mem) (hopen : OpenDirectory mem D.directory) (hv : v < 2 ^ 32)
    (halign : page % pagingPageSize = 0) (hfits : page + pagingPageSize ≤ 2 ^ 32)
    (hword : entry (v / pagingPageSize) = page + rightsWritable) :
    UserWritable mem D.directory v ∧ Lib.physicalAddress mem D.directory v = page + v % pagingPageSize := by
  refine ⟨⟨hopen _ (by omega), ?_⟩, ?_⟩
  · rw [(h.pageEntry hv).2, hword]
    simp only [pagingPageSize, rightsWritable] at *
    omega
  · rw [h.physicalAddress hv, hword, and_pageMask (by simp only [pagingPageSize, rightsWritable] at *; omega)]
    simp only [pagingPageSize, rightsWritable] at *
    omega

/-- A page that was never mapped. -/
theorem Tables.untouched_page (h : Tables D entry mem) (hv : v < 2 ^ 32)
    (hword : entry (v / pagingPageSize) = newEntry (v / pagingPageSize)) :
    ¬ UserWritable mem D.directory v ∧ Lib.physicalAddress mem D.directory v = v := by
  have hentry : newEntry (v / pagingPageSize) = v / pagingPageSize * pagingPageSize + 5 := rfl
  rw [hentry] at hword
  refine ⟨fun hwritable => ?_, ?_⟩
  · have hpage := hwritable.2
    rw [(h.pageEntry hv).2, hword] at hpage
    simp only [pagingPageSize] at hpage
    omega
  · rw [h.physicalAddress hv, hword, and_pageMask (by simp only [pagingPageSize]; omega)]
    simp only [pagingPageSize]
    omega

end Pages

section Generate

variable {r r₀ : Ram H} {s : Kernel H} {xs : List Nat} {vol : Volume} {filename : List UInt8} {process : Nat}

attribute [local irreducible] genTables

/-- A generated directory is open. -/
theorem genPaging4gb_open (hvalid : C.Valid r.heap) :
    Ensures (genPaging4gb A (pagingMasksIsPresent ||| pagingMasksAccessAll)) (fun chunk r' =>
      OpenDirectory r'.mem (read32 r'.mem chunk)) r := by
  unfold genPaging4gb
  refine ((Taken.refl hvalid).kzalloc _).bind fun directory r₁ hdir => ?_
  rw [wp_bind, wp_when]
  refine ⟨fun _ => trivial, fun hne => ?_⟩
  obtain ⟨hnull, _⟩ | ⟨_, htaken₁, _, _⟩ := hdir
  · exact absurd hnull hne
  refine (genTables_spec htaken₁ (Nat.le_refl 1024)).bind fun _ r₂ => ?_
  rintro ⟨_, tables, htaken₂, hmem⟩
  obtain ⟨D, rfl, rfl⟩ := directoryOfTaken htaken₂
  have hlive : C.pages r₂ D.directory ≠ 0 := (htaken₂.fresh _ (by simp)).2
  refine ((Taken.refl htaken₂.valid).kzalloc 4).bind fun chunk r₃ hchunk => ?_
  rw [wp_bind, wp_when]
  refine ⟨fun _ => trivial, fun hne => ?_⟩
  obtain ⟨hnull, _⟩ | ⟨_, htaken₃, _, _⟩ := hchunk
  · exact absurd hnull hne
  have hchunkLive := (htaken₃.fresh chunk (List.mem_singleton_self _)).2
  have hwrite : Taken C r₂ {r₃ with mem := write32 r₃.mem chunk D.directory} [chunk] := by
    refine htaken₃.write fun b hb => ⟨chunk, List.mem_singleton_self _, ?_⟩
    by_contra hout
    refine hb (write32_apart _ _ ?_)
    by_contra hin
    exact hout (Contract.holds_page hchunkLive (by omega) (by simp only [pagingPageSize]; omega))
  have hdirectory : D.directory < 2 ^ 32 := by
    have := D.directory_page.2
    simp only [pagingPageSize] at this
    omega
  show OpenDirectory (write32 r₃.mem chunk D.directory) (read32 (write32 r₃.mem chunk D.directory) chunk)
  rw [read32_write32 _ _ hdirectory]
  -- the words are as the loop left them
  have hopen : OpenDirectory r₂.mem D.directory := by
    intro i hi
    have halign := (D.tables_page i hi).1
    rw [hmem, (generated_spec r₁.mem (by decide) (Nat.le_refl 1024)).1 i hi, Nat.or_assoc,
      show (pagingMasksIsPresent ||| pagingMasksAccessAll) ||| pagingMasksIsWritable = 7 by decide,
      or_flags halign (by decide)]
    simp only [pagingPageSize] at halign
    omega
  exact hopen.congr fun a h1 h2 => hwrite.same _ a hlive (Contract.holds_page hlive h1 h2)

attribute [local irreducible] genPaging4gb

/-- The directory of a new task is open. -/
theorem newTask_open (hvalid : C.Valid s.ram.heap) : Ensures (newTask A process) (fun task t =>
    ∃ chunk, t.taskList.directory task = some chunk ∧ OpenDirectory t.ram.mem (read32 t.ram.mem chunk)) s := by
  unfold newTask
  refine wp.bind (Ensures.onRam ((Taken.refl hvalid).kzalloc _)) fun task t ht => ?_
  obtain ⟨r₁, rfl, htask⟩ := ht
  rw [wp_bind, wp_when]
  refine ⟨fun _ => trivial, fun hne => ?_⟩
  rcases htask with ⟨hnull, _⟩ | ⟨_, h₁, _⟩
  · exact absurd hnull hne
  have hspec := genPaging4gb_spec (A := A) (C := C) (r := r₁) h₁.valid
    (show pagingMasksIsPresent ||| pagingMasksAccessAll < 2 ^ 8 by decide) (by decide)
  refine wp.bind (Ensures.onRam (hspec.and (genPaging4gb_open h₁.valid))) fun chunk t ht => ?_
  obtain ⟨r₂, rfl, ⟨D, h₂, _⟩, hopen⟩ := ht
  refine wp.bind (programEntry_spec process _) ?_
  rintro eip t rfl
  have hnull : chunk ≠ 0 := Contract.ne_null h₂.valid (h₂.fresh chunk (DirectoryBlocks.mem_blocks.mpr (.inl rfl))).2
  refine (Ensures.onTasks (taskNew_directory eip process hne hnull _)).mono fun ret t ht => ?_
  obtain ⟨tasks, rfl, rfl, hdirectory⟩ := ht
  refine ⟨chunk, ?_, hopen⟩
  show tasks.directory ret = _
  rw [hdirectory, Function.update_self]

/-- So is the directory of a process that is loaded, from its new task on. -/
theorem opens_atLoad (A : Allocator H) (C : Contract A) (vol : Volume) (filename : List UInt8) (l : TaskList) :
    AtLoad C vol filename l Kernel.Opens where
  new := by
    intro s process P h
    refine (newTask_open h.valid).mono fun task t ht => ?_
    obtain ⟨chunk, hchunk, hopen⟩ := ht
    obtain ⟨T, hT, hdir⟩ := loadTask_chunk hchunk
    refine ⟨read32 t.ram.mem chunk, ?_, hopen⟩
    unfold Kernel.directoryOf
    rw [show (t.putProcess process (some {P with task := task})).process process = some {P with task := task} from
      Function.update_self ..]
    show (do let T ← t.taskList.tasks task; _) = _
    rw [hT, ← hdir]
    rfl
  mapped := by
    intro s mem process P other D chunk r₀ xs hP hunmapped _ hsame hopens
    -- the mapping stays in the tables
    obtain ⟨T, hT, hdir⟩ := loadTask_chunk hunmapped.directory
    have hof : ∀ u : Kernel H, u.process = s.process → u.taskList = s.taskList → ChunkOf D chunk u.ram.mem →
        u.directoryOf process = some D.directory := by
      intro u hprocess htasks hchunk
      unfold Kernel.directoryOf
      rw [hprocess, hP, htasks]
      show (do let T ← s.taskList.tasks P.task; _) = _
      rw [hT, ← hchunk.directory, ← hdir]
      rfl
    obtain ⟨d, hd, hopen⟩ := hopens
    obtain rfl : d = D.directory := Option.some_inj.mp (hd.symm.trans (hof s rfl rfl hunmapped.chunkOf))
    refine ⟨D.directory, hof _ rfl rfl (hunmapped.chunkOf.congr hsame), hopen.congr fun a h1 h2 => hsame a ?_⟩
    rintro ⟨i, hi, hheld⟩
    have hapart := (D.tables_page i hi).apart D.directory_page (D.tables_ne i hi)
    rw [Extent.holds_mk] at hheld
    omega
  entered := fun _ _ _ _ hopens => hopens

end Generate

/-! ### What a process does itself -/

section Self

variable {s t : Kernel H}

/-- The byte is in the page of the directory of the process. -/
def Kernel.InDirectory (s : Kernel H) (p a : Nat) : Prop := ∃ directory, s.directoryOf p = some directory ∧
  directory ≤ a ∧ a < directory + pagingPageSize

/-- The directory of the process is where it was, with the words it had. -/
structure SameDirectory (p : Nat) (s t : Kernel H) : Prop where
  directoryOf : t.directoryOf p = s.directoryOf p
  words : ∀ a, s.InDirectory p a → t.ram.mem a = s.ram.mem a

theorem SameDirectory.refl (p : Nat) (s : Kernel H) : SameDirectory p s s := ⟨rfl, fun _ _ => rfl⟩

theorem SameDirectory.opens (h : SameDirectory p s t) (hs : s.Opens p) : t.Opens p := by
  obtain ⟨d, hd, hopen⟩ := hs
  exact ⟨d, h.directoryOf.trans hd, hopen.congr fun a h1 h2 => h.words a ⟨d, hd, h1, h2⟩⟩

/-- The directory's page is apart from its tables. -/
theorem HeldBy.inDirectory {T : Task} {D : DirectoryBlocks} {a : Nat} (h : HeldBy C s L p sp P T D)
    (ha : s.InDirectory p a) : ¬ D.InTables a ∧ Extent.Holds ⟨D.directory, pagingPageSize⟩ a := by
  obtain ⟨d, hd, h1, h2⟩ := ha
  obtain rfl : d = D.directory := Option.some_inj.mp (hd.symm.trans h.directoryOf)
  refine ⟨?_, h1, h2⟩
  rintro ⟨i, hi, hheld⟩
  have hapart := (D.tables_page i hi).apart D.directory_page (D.tables_ne i hi)
  rw [Extent.holds_mk] at hheld
  omega

/-- A change in the tables, and of slots of the process. -/
theorem HeldBy.sameDirectory {P' : Process} {T : Task} {D : DirectoryBlocks} {r : Ram H} (h : HeldBy C s L p sp P T D)
    (htask : P'.task = P.task) (hsame : D.SameElsewhere s.ram.mem r.mem) :
    SameDirectory p s ((s.withRam r).putProcess p (some P')) := by
  refine ⟨?_, fun a ha => hsame a (h.inDirectory ha).1⟩
  rw [h.directoryOf]
  unfold Kernel.directoryOf
  rw [show ((s.withRam r).putProcess p (some P')).process p = some P' from Function.update_self ..]
  show (do let T ← s.taskList.tasks P'.task; _) = _
  rw [htask, h.task]
  exact congrArg some (h.chunkOf.congr hsame).directory

theorem processFree_sameDirectory (h : Populated C s L) (hp : L.space p = some sp) (ptr : Nat) :
    Ensures (processFree A p ptr) (fun _ t => SameDirectory p s t) s := by
  obtain ⟨P, T, D, hheld⟩ := h.accounts.held p sp hp
  unfold processFree
  rw [Ensures, wp_bind, wp_loadProcess hheld.process]
  cases hslot : P.slotOf ptr with
  | none => exact .refl p s
  | some i =>
    obtain ⟨hi, _⟩ := Process.slotOf_some hslot
    simp only
    rw [hheld.allocation]
    obtain ⟨halign, hfit⟩ := h.slot_fits hp hi
    refine wp.bind ((hheld.mapSelf halign hfit (by decide)).mono (fun _ _ h => h) fun _ _ => trivial)
      fun res s₁ hmapped => ?_
    obtain ⟨rfl, mem, rfl, _, hsame⟩ := hmapped
    rw [wp_when]
    refine ⟨fun _ => ?_, fun hneg => absurd (Int.le_refl 0) hneg⟩
    rw [wp_bind]
    refine (wp_loadProcess (by exact hheld.process)).mpr ?_
    rw [wp_bind]
    refine (wp_storeProcess (by exact hheld.process)).mpr ?_
    exact hheld.sameDirectory (r := released A ptr {s.ram with mem := mem}) rfl hsame

theorem processMalloc_sameDirectory (h : Populated C s L) (hp : L.space p = some sp) (size : Nat) :
    Ensures (processMalloc A p size) (fun _ t => SameDirectory p s t) s := by
  obtain ⟨P, T, D, hheld⟩ := h.accounts.held p sp hp
  unfold processMalloc
  rw [Ensures, wp_bind, wp_loadProcess hheld.process]
  generalize processFindFreeAllocationSlot P = idx
  dsimp only
  split
  · exact .refl p s
  refine wp.bind (Ensures.onRam ((Taken.refl h.accounts.valid).kzalloc size)) fun ptr t ht => ?_
  obtain ⟨r, rfl, hmemory⟩ := ht
  -- what was asked for is new
  have htaken : ∃ xs, Taken C s.ram r xs := by
    obtain ⟨_, h⟩ | ⟨_, h, _⟩ := hmemory
    · exact ⟨_, h⟩
    · exact ⟨_, h⟩
  obtain ⟨xs, htaken⟩ := htaken
  have hpage : ∀ b ∈ D.blocks T.pageDirectory, ∀ a, Extent.Holds ⟨b, pagingPageSize⟩ a → r.mem a = s.ram.mem a := by
    intro b hb a ha
    have hlive := h.accounts.live_iff.mp (hheld.blocks b hb).1
    exact htaken.same b a hlive (Contract.holds_page hlive ha.1 ha.2)
  have hheld₁ : HeldBy C (s.withRam r) {L with pages := C.live r.heap} p sp P T D :=
    hheld.frame rfl hheld.task rfl (fun b _ hb _ => ⟨h.kept_taken (t := s.withRam r) htaken b hb, rfl⟩) hpage
  have hfirst : ∀ a, s.InDirectory p a → r.mem a = s.ram.mem a := fun a ha =>
    hpage D.directory (DirectoryBlocks.mem_blocks.mpr (.inr (.inl rfl))) a (hheld.inDirectory ha).2
  have hof : (s.withRam r).directoryOf p = s.directoryOf p := hheld₁.directoryOf.trans hheld.directoryOf.symm
  split
  · exact ⟨hof, hfirst⟩
  rename_i hne
  obtain ⟨hnull, _⟩ | ⟨_, hnew, hroom, _⟩ := hmemory
  · exact absurd hnull hne
  obtain ⟨halign, _, hend⟩ := C.placed hnew.valid (hnew.fresh ptr (List.mem_singleton_self _)).2
  have hfit : ptr + size + pagingPageSize ≤ 2 ^ 32 := by
    change ptr + C.pages r ptr * heapBlockSize ≤ _ at hend
    simp only [heapBlockSize, heapBaseAddress, heapMaxHeapSize, pagingPageSize] at *
    omega
  refine wp.bind ((hheld₁.mapSelf halign hfit (by decide)).mono (fun _ _ h => h) fun _ _ => trivial) fun res u hmapped => ?_
  obtain ⟨rfl, mem, rfl, _, hsame⟩ := hmapped
  rw [if_neg (by decide), wp_bind]
  refine (wp_loadProcess (by exact hheld.process)).mpr ?_
  rw [wp_bind]
  refine (wp_storeProcess (by exact hheld.process)).mpr ?_
  have hlast := hheld₁.sameDirectory (r := {r with mem := mem})
    (show (P.putAllocation idx.toNat ⟨ptr, size⟩).task = P.task from rfl) hsame
  refine ⟨hlast.directoryOf.trans hof, fun a ha => (hlast.words a ?_).trans (hfirst a ha)⟩
  obtain ⟨d, hd, hin⟩ := ha
  exact ⟨d, hof.trans hd, hin⟩

end Self

/-! ### The invariant -/

/-- A process that is spared keeps its directory. -/
theorem Ledger.Spares.sameDirectory {s t : Kernel H} (h : L.Spares s t q) (hpopulated : Populated C s L)
    (hq : L.space q = some sq) : SameDirectory q s t := by
  obtain ⟨Q, hres⟩ := hpopulated.resident q sq hq
  obtain ⟨Q', T, D, hheld⟩ := hpopulated.accounts.held q sq hq
  obtain rfl : Q = Q' := Option.some_inj.mp (hres.process.symm.trans hheld.process)
  have hpage : ∀ b ∈ D.blocks T.pageDirectory, ∀ a, b ≤ a → a < b + pagingPageSize → t.ram.mem a = s.ram.mem a := by
    intro b hb a h1 h2
    obtain ⟨hlive, howner⟩ := hheld.blocks b hb
    have hone := Nat.one_le_iff_ne_zero.mpr hlive
    refine h.bytes b _ a ⟨hlive, howner⟩ h1 ?_
    simp only [pagingPageSize, heapBlockSize] at *
    omega
  have hchunk := h.directory _ _ hres.task
  rw [show s.taskList.directory Q.task = some T.pageDirectory from congrArg (Option.map Task.pageDirectory) hheld.task]
    at hchunk
  obtain ⟨T', hT', hdir⟩ := loadTask_chunk hchunk
  refine ⟨?_, fun a ha => ?_⟩
  · rw [hheld.directoryOf]
    unfold Kernel.directoryOf
    rw [h.process, hres.process]
    show (do let T ← t.taskList.tasks Q.task; _) = _
    rw [hT']
    show some (read32 t.ram.mem T'.pageDirectory) = _
    rw [hdir, read32_congr fun a h1 h2 => hpage T.pageDirectory (DirectoryBlocks.mem_blocks.mpr (.inl rfl)) a h1 (by
      simp only [pagingPageSize]
      omega)]
    exact congrArg some hheld.chunkOf.directory
  · have hin := (hheld.inDirectory ha).2
    exact hpage D.directory (DirectoryBlocks.mem_blocks.mpr (.inr (.inl rfl))) a hin.1 hin.2

/-- A store to a byte of its own leaves every directory. -/
theorem Populated.store_sameDirectory {s : Kernel H} {a : Nat} (h : Populated C s L) (ha : L.OwnByte p a) (byte : UInt8)
    (hq : L.space q = some sq) : SameDirectory q s (s.withRam {s.ram with mem := Function.update s.ram.mem a byte}) := by
  obtain ⟨Q, T, D, hheld⟩ := h.accounts.held q sq hq
  have hpage : ∀ b ∈ D.blocks T.pageDirectory, ∀ x, Extent.Holds ⟨b, pagingPageSize⟩ x →
      Function.update s.ram.mem a byte x = s.ram.mem x := by
    intro b hb x hx
    refine Function.update_of_ne ?_ ..
    rintro rfl
    exact h.own_apart ha ⟨(hheld.blocks b hb).1, (hheld.blocks b hb).2⟩ hx
  have hheld' : HeldBy C (s.withRam {s.ram with mem := Function.update s.ram.mem a byte}) L q sq Q T D :=
    hheld.frame rfl hheld.task rfl (fun _ _ _ _ => ⟨rfl, rfl⟩) hpage
  exact ⟨hheld'.directoryOf.trans hheld.directoryOf.symm, fun x hx =>
    hpage D.directory (DirectoryBlocks.mem_blocks.mpr (.inr (.inl rfl))) x (hheld.inDirectory hx).2⟩

variable {s t : Lives H}

/-- The accounts, and open directories. -/
structure Lives.Open (C : Contract A) (held : Nat → Prop) (s : Lives H) : Prop where
  confined : ∃ L, s.Confined C held L
  opens : ∀ p, s.live p → s.kernel.Opens p

/-- **A step keeps the directories open.** -/
theorem Lives.Open.step {op : WorkOp} (h : s.Open C held) (hinside : op.Inside) (hstep : WorkStep A s op t) :
    t.Open C held := by
  obtain ⟨⟨L, hconfined⟩, hopens⟩ := h
  refine ⟨hconfined.step hinside hstep, fun q hq => ?_⟩
  have hpopulated := hconfined.accounted.populated
  have hspared : s.live q → (∀ sq, L.space q = some sq → L.Spares s.kernel t.kernel q) → t.kernel.Opens q := by
    intro hlive hspares
    obtain ⟨sq, hsq⟩ := hconfined.accounted.live q hlive
    exact ((hspares sq hsq).sameDirectory hpopulated hsq).opens (hopens q hlive)
  cases hstep with
  | @call op _ hcall =>
    have hothers : s.live q → (WorkOp.call op).actor ≠ some q → t.kernel.Opens q := fun hlive hne =>
      hspared hlive fun sq hsq => hcall.spares hconfined.accounted hsq hne
    cases hcall with
    | @load vol junk filename process u hload =>
      rcases hq with rfl | hq
      · have hopen := processLoadSwitch_establishes (opens_atLoad A C vol filename _) junk hpopulated.accounts.valid
        exact hopen.returned hload (Int.le_refl 0) _ rfl
      · exact hothers hq (by simp [WorkOp.actor])
    | loadFails => exact hothers hq (by simp [WorkOp.actor])
    | @malloc p size ret u hp hmalloc =>
      by_cases hqp : p = q
      · subst hqp
        obtain ⟨sp, hsp⟩ := hconfined.accounted.live p hp
        exact ((processMalloc_sameDirectory hpopulated hsp size).returned hmalloc).opens (hopens p hp)
      · exact hothers hq (by simpa [WorkOp.actor] using hqp)
    | @free p ptr u hp hfree =>
      by_cases hqp : p = q
      · subst hqp
        obtain ⟨sp, hsp⟩ := hconfined.accounted.live p hp
        exact ((processFree_sameDirectory hpopulated hsp ptr).returned hfree).opens (hopens p hp)
      · exact hothers hq (by simpa [WorkOp.actor] using hqp)
    | @terminate p res u hp hterminate => exact hothers hq.1 (by simpa [WorkOp.actor] using Ne.symm hq.2)
  | @store p vAddr byte directory hp hdirectory hvAddr hwritable =>
    have hown := hconfined.own hp hdirectory hvAddr hwritable
    obtain ⟨sq, hsq⟩ := hconfined.accounted.live q hq
    exact (hpopulated.store_sameDirectory hown byte hsq).opens (hopens q hq)

theorem open_of_run (hrun : Run (WorkStep A) (fun _ op => op.Inside) (Booted C held) s) : s.Open C held :=
  hrun.invariant (I := fun s => s.Open C held)
    (fun _ h => ⟨⟨_, h.lives_confined⟩, fun p hp => absurd hp (h.nobody.live p)⟩)
    fun _ _ _ h hinside hstep => h.step hinside hstep

/-! ### Rights -/

/-- In an open directory the word of the page decides. -/
theorem HeldBy.userWritable_iff {s : Kernel H} {T : Task} {D : DirectoryBlocks} {vAddr : Nat} (h : HeldBy C s L p sp P T D)
    (hopen : OpenDirectory s.ram.mem D.directory) (hvAddr : vAddr < 2 ^ 32) :
    UserWritable s.ram.mem D.directory vAddr ↔ Writable (sp.entry (vAddr / pagingPageSize)) := by
  unfold UserWritable
  rw [(h.tables.pageEntry hvAddr).2]
  exact and_iff_right (hopen _ (by omega))

/-- **The words the kernel keeps are what the processor enforces**: user mode can write where the word of the page is
writable, and nowhere else. -/
theorem userWritable_iff (hrun : Run (WorkStep A) (fun _ op => op.Inside) (Booted C held) s) (hp : s.live p) :
    ∃ directory, s.kernel.directoryOf p = some directory ∧ ∀ vAddr, vAddr < 2 ^ 32 →
      (UserWritable s.kernel.ram.mem directory vAddr ↔
        ∃ word, s.kernel.pageWord p (vAddr / pagingPageSize) = some word ∧ Writable word) := by
  obtain ⟨⟨L, hconfined⟩, hopens⟩ := open_of_run hrun
  obtain ⟨sp, hsp⟩ := hconfined.accounted.live p hp
  obtain ⟨P, T, D, hheld⟩ := hconfined.accounted.populated.accounts.held p sp hsp
  obtain ⟨d, hd, hopen⟩ := hopens p hp
  obtain rfl : d = D.directory := Option.some_inj.mp (hd.symm.trans hheld.directoryOf)
  refine ⟨D.directory, hd, fun vAddr hvAddr => ?_⟩
  rw [hheld.userWritable_iff hopen hvAddr, hheld.pageWord (by simp only [pagingPageSize]; omega)]
  simp

/-- The bytes of an allocation are writable, at the address it was given. -/
theorem Lives.Open.allocation {i vAddr : Nat} (h : s.Open C held) (hp : s.live p) (hP : s.kernel.process p = some P)
    (hi : i < basicOSMaxAllocationsAllowedPerProcess) (hused : (P.allocations i).ptr ≠ 0)
    (hle : (P.allocations i).ptr ≤ vAddr) (hlt : vAddr < (P.allocations i).ptr + (P.allocations i).size) :
    vAddr < 2 ^ 32 ∧ ∃ directory, s.kernel.directoryOf p = some directory ∧
      UserWritable s.kernel.ram.mem directory vAddr ∧ physicalAddress s.kernel.ram.mem directory vAddr = vAddr := by
  obtain ⟨⟨L, hconfined⟩, hopens⟩ := h
  have hpopulated := hconfined.accounted.populated
  obtain ⟨sp, hsp⟩ := hconfined.accounted.live p hp
  obtain ⟨P', T, D, hheld⟩ := hpopulated.accounts.held p sp hsp
  obtain rfl : P = P' := Option.some_inj.mp (hP.symm.trans hheld.process)
  obtain ⟨d, hd, hopen⟩ := hopens p hp
  obtain rfl : d = D.directory := Option.some_inj.mp (hd.symm.trans hheld.directoryOf)
  rw [hheld.allocation] at hused hle hlt
  obtain ⟨halign, hfit⟩ := hpopulated.slot_fits hsp hi
  have hvAddr : vAddr < 2 ^ 32 := by omega
  have hcovers : (sp.allocation i).Covers (vAddr / pagingPageSize) := by
    unfold ProcessAllocation.Covers
    simp only [heapBlockSize, pagingPageSize] at *
    omega
  have hword := (hpopulated.recorded p sp hsp).mapped i _ ⟨hi, hused⟩ hcovers
  obtain ⟨hwritable, hphysical⟩ := hheld.tables.writable_page hopen hvAddr (Nat.mul_mod_left ..) (by
    simp only [heapBlockSize, pagingPageSize] at *
    omega) hword
  refine ⟨hvAddr, D.directory, hd, hwritable, hphysical.trans ?_⟩
  simp only [pagingPageSize]
  omega

/-! ### One program loaded, and a second one -/

/-- What the loads of `x` answer, before and after the first one has asked for memory, the slot it has then and how
many blocks were given out by then. -/
def twoPrograms : Option (((Int × Option Nat) × Nat) × Option ProcessAllocation × Nat × (Int × Option Nat)) :=
  match processLoadSwitch ladder flatVolume ⟨0, 0⟩ pathX noProcesses with
  | .error _ => none
  | .ok (out, s) =>
    match processMalloc ladder 0x1000000 100 s with
    | .error _ => none
    | .ok (ptr, t) =>
      match processLoadSwitch ladder flatVolume ⟨0, 0⟩ pathX t with
      | .error _ => none
      | .ok (out', _) =>
        some ((out, ptr), (t.process 0x1000000).map fun P => P.allocations 0, t.ram.heap.next, out')

set_option maxRecDepth 100000 in
theorem twoPrograms_eq : twoPrograms = some (((0, some 0x1000000), 0x2060000), some ⟨0x2060000, 100⟩, 1049,
    (0, some 0x2064000)) := by decide +kernel

set_option maxRecDepth 100000 in
/-- The file does not start as an ELF file. -/
theorem flat_inside : (LifeOp.load flatVolume ⟨0, 0⟩ pathX).Inside := by
  refine .inl fun record hnames => ?_
  obtain ⟨priv, hmounted, i, full, hi, hrecord, _⟩ := hnames
  obtain rfl := Option.some_inj.mp hmounted
  have hi : i < 1 := hi
  obtain rfl : i = 0 := by omega
  obtain rfl := Option.some_inj.mp hrecord
  refine .signature 0 (by decide) ?_ (fun j hj => absurd hj (Nat.not_lt_zero j)) ?_
  · rw [length_fileRead]
    decide
  · decide +kernel

/-- A program is loaded, asks for 100 bytes, and another one is loaded. -/
structure TwoPrograms (s t u : Lives Ladder) (P : Process) : Prop where
  first : Run (WorkStep ladder) (fun _ op => op.Inside) (Booted ladderContract fun _ => False) s
  request : WorkStep ladder s (.call (.malloc 0x1000000 100)) t
  granted : processMalloc ladder 0x1000000 100 s.kernel = .ok (0x2060000, t.kernel)
  second : WorkStep ladder t (.call (.load flatVolume ⟨0, 0⟩ pathX)) u
  live : t.live 0x1000000 ∧ u.live 0x2064000
  process : t.kernel.process 0x1000000 = some P
  allocation : P.allocations 0 = ⟨0x2060000, 100⟩
  next : t.kernel.ram.heap.next = 1049

theorem exists_twoPrograms : ∃ s t u P, TwoPrograms s t u P := by
  have hfacts := twoPrograms_eq
  unfold twoPrograms at hfacts
  split at hfacts
  · cases hfacts
  rename_i out s hload
  split at hfacts
  · cases hfacts
  rename_i ptr t hmalloc
  split at hfacts
  · cases hfacts
  rename_i out' u hload'
  simp only [Option.some.injEq, Prod.mk.injEq] at hfacts
  obtain ⟨⟨rfl, rfl⟩, hslot, hnext, rfl⟩ := hfacts
  obtain ⟨P, hP, hallocation⟩ := Option.map_eq_some_iff.mp hslot
  have hstart : Booted ladderContract (fun _ => False) ⟨noProcesses, fun _ => False⟩ :=
    ⟨⟨noProcesses_valid, fun _ => rfl, fun _ => id⟩, fun _ => False.elim⟩
  have hinside : WorkOp.Inside (.call (.load flatVolume ⟨0, 0⟩ pathX)) := flat_inside
  exact ⟨_, _, _, P, .step (.start hstart) hinside (.call (.load hload)), .call (.malloc (.inl rfl) hmalloc),
    hmalloc, .call (.load hload'), ⟨.inl rfl, .inl rfl⟩, hP, hallocation, hnext⟩

theorem TwoPrograms.requested {s t u : Lives Ladder} (h : TwoPrograms s t u P) :
    Run (WorkStep ladder) (fun _ op => op.Inside) (Booted ladderContract fun _ => False) t :=
  .step h.first (show WorkOp.Inside (.call (.malloc 0x1000000 100)) from trivial) h.request

/-! ### What programs can do -/

/-- **What a process has allocated it can write**, every byte, at the address it was given. -/
theorem allocation_usable {i vAddr : Nat} (hrun : Run (WorkStep A) (fun _ op => op.Inside) (Booted C held) s)
    (hp : s.live p) (hP : s.kernel.process p = some P) (hi : i < basicOSMaxAllocationsAllowedPerProcess)
    (hused : (P.allocations i).ptr ≠ 0) (hle : (P.allocations i).ptr ≤ vAddr)
    (hlt : vAddr < (P.allocations i).ptr + (P.allocations i).size) :
    ∃ directory, s.kernel.directoryOf p = some directory ∧ UserWritable s.kernel.ram.mem directory vAddr ∧
      physicalAddress s.kernel.ram.mem directory vAddr = vAddr :=
  ((open_of_run hrun).allocation hp hP hi hused hle hlt).2

/-- The second byte of an allocation of 100. -/
theorem allocation_usable_second : ∃ (s : Lives Ladder) (directory : Nat), s.live 0x1000000 ∧
    s.kernel.directoryOf 0x1000000 = some directory ∧
    UserWritable s.kernel.ram.mem directory 0x2060001 ∧
    physicalAddress s.kernel.ram.mem directory 0x2060001 = 0x2060001 := by
  obtain ⟨s, t, u, P, h⟩ := exists_twoPrograms
  have hrange : (P.allocations 0).ptr ≠ 0 ∧ (P.allocations 0).ptr ≤ 0x2060001 ∧
      0x2060001 < (P.allocations 0).ptr + (P.allocations 0).size := by
    rw [h.allocation]
    decide
  obtain ⟨hused, hle, hlt⟩ := hrange
  obtain ⟨directory, husable⟩ := allocation_usable h.requested h.live.1 h.process (by decide) hused hle hlt
  exact ⟨t, directory, h.live.1, husable⟩

/-! ### What a store changes -/

/-- The block is one that `p` uses, and no other process, nor the kernel for any. -/
structure PrivateBlock (C : Contract A) (held : Nat → Prop) (s : Lives H) (p : Nat) (P : Process) (b : Nat) : Prop where
  uses : P.Uses s.kernel b
  live : C.pages s.kernel.ram b ≠ 0
  free : ¬ held b
  others : ∀ q Q, s.live q → s.kernel.process q = some Q → (Q.Uses s.kernel b → q = p) ∧ ¬ Q.KeptBy s.kernel q b

/-- A block a process has for its own use is private. -/
theorem Lives.Confined.private_block {b : Nat} {use : Use} (h : s.Confined C held L) (hb : L.Owns p b use)
    (hdirect : use.Direct) (huses : P.Uses s.kernel b) : PrivateBlock C held s p P b := by
  have hpopulated := h.accounted.populated
  refine ⟨huses, hpopulated.accounts.live_iff.mp hb.live, fun hheldb => ?_, fun q Q hq hQ => ?_⟩
  · have howner := hb.owner
    rw [(h.confined.held b hheldb).2] at howner
    cases howner
  obtain ⟨sq, hsq⟩ := h.accounted.live q hq
  obtain ⟨Q', hresq⟩ := hpopulated.resident q sq hsq
  obtain rfl : Q = Q' := Option.some_inj.mp (hQ.symm.trans hresq.process)
  obtain ⟨Q', T', D', hheldq⟩ := hpopulated.accounts.held q sq hsq
  obtain rfl : Q = Q' := Option.some_inj.mp (hQ.symm.trans hheldq.process)
  constructor
  · intro husesq
    obtain ⟨use', howner', _⟩ := husesq.owned hresq (hpopulated.recorded q sq hsq) hheldq.allocation
    exact (Owner.mk.inj (Option.some_inj.mp (howner'.symm.trans hb.owner))).1
  · intro hkept
    obtain ⟨use', howner', huse'⟩ := hkept.owned hresq hheldq
    obtain ⟨_, rfl⟩ := Owner.mk.inj (Option.some_inj.mp (howner'.symm.trans hb.owner))
    exact huse' hdirect

/-- **A store of a program changes a block of its own**, which no other process uses and the kernel does not
have, whatever the programs have done before. -/
theorem store_private {vAddr : Nat} {byte : UInt8}
    (hrun : Run (WorkStep A) (fun _ op => op.Inside) (Booted C held) s) (hstep : WorkStep A s (.store p vAddr byte) t) :
    ∃ P b, s.kernel.process p = some P ∧ PrivateBlock C held s p P b ∧
      ∀ a, ¬ (C.block s.kernel.ram b).Holds a → t.kernel.ram.mem a = s.kernel.ram.mem a := by
  obtain ⟨L, hconfined⟩ := lives_confined_of_run hrun
  have hpopulated := hconfined.accounted.populated
  cases hstep with
  | @store _ _ _ directory hp hdirectory hvAddr hwritable =>
    obtain ⟨sp, hsp⟩ := hconfined.accounted.live p hp
    obtain ⟨P, hres⟩ := hpopulated.resident p sp hsp
    obtain ⟨P', T, D, hheld⟩ := hpopulated.accounts.held p sp hsp
    obtain rfl : P = P' := Option.some_inj.mp (hres.process.symm.trans hheld.process)
    obtain rfl : directory = D.directory := Option.some_inj.mp (hdirectory.symm.trans hheld.directoryOf)
    obtain ⟨b, hlive, hback, hle, hlt⟩ := (hconfined.confined.isolated p sp hsp).store_backed
      hpopulated.accounts.placed hheld hvAddr hwritable
    obtain ⟨use, howner, hdirect⟩ := hback.own (hpopulated.recorded p sp hsp)
    refine ⟨P, b, hres.process, hconfined.private_block ⟨hlive, howner⟩ hdirect
      (hback.uses hconfined.confined hres hheld.allocation), fun a ha => Function.update_of_ne ?_ ..⟩
    rintro rfl
    rw [hpopulated.accounts.pages] at hlt
    exact ha ⟨hle, hlt⟩

/-- A program stores to what it has allocated. -/
theorem store_private_first : ∃ s t P b, WorkStep ladder s (.store 0x1000000 0x2060000 42) t ∧
    PrivateBlock ladderContract (fun _ => False) s 0x1000000 P b ∧
    ∀ a, ¬ (ladderContract.block s.kernel.ram b).Holds a → t.kernel.ram.mem a = s.kernel.ram.mem a := by
  obtain ⟨s, t, u, P, h⟩ := exists_twoPrograms
  have hrange : (P.allocations 0).ptr ≠ 0 ∧ (P.allocations 0).ptr ≤ 0x2060000 ∧
      0x2060000 < (P.allocations 0).ptr + (P.allocations 0).size := by
    rw [h.allocation]
    decide
  obtain ⟨hused, hle, hlt⟩ := hrange
  obtain ⟨hvAddr, directory, hdirectory, hwritable, _⟩ := (open_of_run h.requested).allocation h.live.1 h.process
    (by decide) hused hle hlt
  have hstep : WorkStep ladder t (.store 0x1000000 0x2060000 42) _ := .store h.live.1 hdirectory hvAddr hwritable
  obtain ⟨P, b, _, hprivate, hsame⟩ := store_private h.requested hstep
  exact ⟨t, _, P, b, hstep, hprivate, hsame⟩

/-- **What the others do leaves a process undisturbed.** From any state that programs at work reach, whatever the
other processes then do, and whoever is loaded: a live process stays, with the structure, the page words and
the bytes it had. -/
theorem others_leave_alone {t : Lives H} (hrun : Run (WorkStep A) (fun _ op => op.Inside) (Booted C held) s) (hq : s.live q)
    (hothers : Run (WorkStep A) (fun _ op => op.Inside ∧ op.actor ≠ some q) (· = s) t) :
    t.live q ∧ SameFor C q s.kernel t.kernel := by
  obtain ⟨L, hconfined⟩ := lives_confined_of_run hrun
  obtain ⟨sq, hsq⟩ := hconfined.accounted.live q hq
  have hinvariant : ∃ L', LeftAlone C held L q sq s t L' := by
    refine hothers.invariant (I := fun t => ∃ L', LeftAlone C held L q sq s t L') (fun t ht => ?_)
      fun t op u ⟨_, h⟩ hop hstep => h.step hop.1 hop.2 hstep
    subst ht
    exact ⟨L, hconfined, hq, hsq, fun _ _ _ _ => ⟨rfl, rfl⟩, .refl t.kernel q⟩
  obtain ⟨L', h⟩ := hinvariant
  exact ⟨h.live, h.sameFor hconfined hsq⟩

/-- A process with an allocation, while another one is loaded. -/
theorem others_leave_alone_load : ∃ s t : Lives Ladder, s.live 0x1000000 ∧ t.live 0x2064000 ∧
    t.live 0x1000000 ∧ SameFor ladderContract 0x1000000 s.kernel t.kernel := by
  obtain ⟨s, t, u, P, h⟩ := exists_twoPrograms
  have hsecond : WorkOp.Inside (.call (.load flatVolume ⟨0, 0⟩ pathX)) ∧
      WorkOp.actor (.call (.load flatVolume ⟨0, 0⟩ pathX)) ≠ some 0x1000000 := ⟨flat_inside, by simp [WorkOp.actor]⟩
  exact ⟨t, u, h.live.1, h.live.2, others_leave_alone h.requested h.live.1 (.step (.start rfl) hsecond h.second)⟩

end BasicOS

import BasicOS.Process.Layout

/-! What a load takes when it succeeds and what it leaves when it fails.

The blocks of a new process are those of its directory, its task, its stack, its image and
the structure itself; one more belongs to the attempt to read the file as ELF. A load that fails
after that attempt began releases what the cleanup knows of, and one block stays behind
(`loadInto_outcome`, `loadCleanup_outcome`). -/
namespace BasicOS
open Lib Program

variable {H : Type} {A : Allocator H} {C : Contract A} {r₀ : Ram H} {xs : List Nat} {D : DirectoryBlocks}
  {chunk : Nat} {entry : Nat → Nat} {vol : Volume} {filename : List UInt8} {s t : Kernel H} {P : Process}
  {process other : Nat}

attribute [local irreducible] pagingFree4gb tablesBelow

/-! ### Releasing a task -/

/-- The directory and the task are released, and the links of other tasks may change. -/
theorem freeTask_freed {task : Nat} (hdirectory : s.taskList.directory task = some chunk) (hvalid : C.Valid s.ram.heap)
    (hlive : DirectoryLive C s.ram D chunk) (htask : C.pages s.ram task ≠ 0) (hnew : task ∉ D.blocks chunk) :
    wp (freeTask A task) (fun _ t => ∃ ram tasks, t = {s.withRam ram with taskList := tasks} ∧
      tasks.directory = Function.update s.taskList.directory task none ∧ Freed C s.ram ram (D.blocks chunk ++ [task]))
      (fun e => taskFree task s.taskList = .error e) s := by
  obtain ⟨T, hT, rfl⟩ := loadTask_chunk hdirectory
  unfold freeTask
  rw [wp_bind, wp_onTasks_loadTask hT]
  refine wp.bind (wp.onRam ((pagingFree4gb_spec hvalid hlive).mono (fun _ _ h => h) fun _ h => h.elim)) fun _ t ht => ?_
  obtain ⟨r₁, rfl, hfreed⟩ := ht
  refine wp.bind (wp.onTasks (taskFree_directory task s.taskList).error) fun _ t ht => ?_
  obtain ⟨tasks, rfl, hdir⟩ := ht
  have htask₁ : C.pages r₁ task ≠ 0 := by
    rw [hfreed.kept task hnew]
    exact htask
  exact ⟨_, tasks, rfl, hdir, hfreed.trans (freed_kfree hfreed.valid htask₁)⟩

/-- What the cleanup releases through `task`. -/
inductive TaskBlocks (C : Contract A) (s : Kernel H) (task : Nat) : List Nat → Prop where
  | none (h : task = 0) : TaskBlocks C s task []
  | some (D : DirectoryBlocks) (chunk : Nat) (h : task ≠ 0) (hdirectory : s.taskList.directory task = some chunk)
      (hlive : DirectoryLive C s.ram D chunk) : TaskBlocks C s task (D.blocks chunk ++ [task])

/-- A pointer is released if it is not null. -/
theorem kfree_nonNull {p : Nat} (h : Taken C r₀ s.ram (nonNull p ++ xs)) :
    Ensures (when (p ≠ 0) (onRam (kfree A p))) (fun _ t => ∃ ram, t = s.withRam ram ∧ Taken C r₀ ram xs) s := by
  rw [Ensures, wp_when]
  refine ⟨fun hne => ?_, fun hnull => ?_⟩
  · exact ⟨_, rfl, h.kfree_nonNull⟩
  · obtain rfl := not_not.mp hnull
    exact ⟨s.ram, rfl, h⟩

/-- The cleanup releases the blocks the structure names and the structure itself. -/
theorem loadCleanup_outcome {ts : List Nat} (hne : process ≠ 0) (hP : s.process process = some P)
    (ht : TaskBlocks C s P.task ts)
    (h : Taken C r₀ s.ram (ts ++ (nonNull P.stack ++ (nonNull P.ptr ++ process :: xs)))) :
    Ensures (loadCleanup A process) (fun _ t => LoadFrame C r₀ process s t ∧
      t.process = Function.update s.process process none ∧ Taken C r₀ t.ram xs) s := by
  unfold loadCleanup
  rw [when_true hne, Ensures, wp_bind, wp_loadProcess hP, wp_bind]
  -- the task and its directory
  have htask : Ensures (when (P.task ≠ 0) (freeTask A P.task)) (fun _ t => LoadFrame C r₀ process s t ∧
      t.process = s.process ∧ Taken C r₀ t.ram (nonNull P.stack ++ (nonNull P.ptr ++ process :: xs))) s := by
    rw [Ensures, wp_when]
    refine ⟨fun hne => ?_, fun hnull => ?_⟩
    · cases ht with
      | none hnull => exact absurd hnull hne
      | some D chunk _ hdirectory hlive =>
        have htask : P.task ∈ D.blocks chunk ++ [P.task] := by simp
        have hfresh := h.fresh P.task (List.mem_append_left _ htask)
        have hnew : P.task ∉ D.blocks chunk := fun hmem =>
          (List.nodup_append.mp (List.nodup_append.mp h.nodup).1).2.2 _ hmem _ (List.mem_singleton_self _) rfl
        refine (freeTask_freed hdirectory h.valid hlive hfresh.2 hnew).mono (fun _ t ht => ?_) fun _ _ => trivial
        obtain ⟨ram, tasks, rfl, hdir, hfreed⟩ := ht
        refine ⟨⟨rfl, rfl, rfl, fun _ _ => rfl, fun _ _ => rfl, fun q hq => ?_⟩, rfl, h.freed hfreed⟩
        show tasks.directory q = _
        rw [hdir, Function.update_of_ne fun heq : q = P.task => hq (heq ▸ hfresh.1)]
    · cases ht with
      | none => exact ⟨LoadFrame.refl s, rfl, h⟩
      | some _ _ hne => exact absurd hne hnull
  refine htask.mono fun _ t ht => ?_
  obtain ⟨hframe, hprocess, h₁⟩ := ht
  refine wp.bind (kfree_nonNull h₁) fun _ u hu => ?_
  obtain ⟨r₂, rfl, h₂⟩ := hu
  -- `ptr`, which may be the `struct elf_file`
  have hptr : Ensures (when (P.ptr ≠ 0) do
      onRam (kfree A P.ptr)
      modify fun s => s.putElfFile P.ptr none) (fun _ u => LoadFrame C r₀ process s u ∧ u.process = s.process ∧
      Taken C r₀ u.ram (process :: xs)) (t.withRam r₂) := by
    rw [Ensures, wp_when]
    refine ⟨fun hne => ?_, fun hnull => ?_⟩
    · have hfresh := (h₂.fresh P.ptr (by rw [nonNull_ne hne]; simp)).1
      exact ⟨((hframe.withRam r₂).withRam _).putElfFile hfresh none, hprocess, h₂.kfree_nonNull⟩
    · rw [not_not.mp hnull] at h₂
      exact ⟨hframe.withRam r₂, hprocess, h₂⟩
  refine wp.bind hptr fun _ u hu => ?_
  obtain ⟨hframe', hprocess', h₃⟩ := hu
  unfold onRam kfree
  rw [wp_bind, wp_zoom, wp_modify, wp_modify]
  refine ⟨(hframe'.withRam _).putProcess none, ?_, h₃.kfree⟩
  show Function.update u.process process none = _
  rw [hprocess']

/-! ### A process with everything it has -/

/-- The image of a process depends on the file's block and on the fields that name it. -/
theorem Process.ImageOf.congr {P' : Process} (h : P.ImageOf C vol filename s other)
    (hfiletype : P'.filetype = P.filetype)
    (hptr : P'.ptr = P.ptr) (hsize : P'.size = P.size) (helf : t.elfFile = s.elfFile)
    (hholds : ∀ addr record, addr = P.ptr ∨ addr = other → HoldsFile C vol filename s.ram addr record →
      HoldsFile C vol filename t.ram addr record) : P'.ImageOf C vol filename t other := by
  cases h with
  | elf htype hF hmemory holds =>
    exact .elf (hfiletype.trans htype) (by rw [helf, hptr]; exact hF) hmemory (hholds _ _ (.inr rfl) holds)
  | flat htype hsize' holds =>
    refine .flat (hfiletype.trans htype) (hsize.trans hsize') ?_
    rw [hptr]
    exact hholds _ _ (.inl rfl) holds

/-- A file in a block that is none of the tables is there after the tables have changed. -/
theorem HoldsFile.sameElsewhere {r : Ram H} {mem : Memory} {addr : Nat} {record : FatDirectoryItem}
    (h : HoldsFile C vol filename r addr record) (hvalid : C.Valid r.heap)
    (htables : ∀ i, i < 1024 → C.pages r (D.tables i) ≠ 0 ∧ addr ≠ D.tables i) (hsame : D.SameElsewhere r.mem mem) :
    HoldsFile C vol filename ⟨r.heap, mem⟩ addr record := by
  refine ⟨h.names, h.read, h.live, h.room, fun i hi => ?_⟩
  refine (hsame (addr + i) ?_).trans (h.bytes i hi)
  rintro ⟨j, hj, hheld⟩
  obtain ⟨hlive, hne⟩ := htables j hj
  rw [Extent.holds_mk] at hheld
  have hroom := h.room
  refine C.blocks_apart hvalid h.live hlive hne (addr + i) ?_ (Contract.holds_page hlive hheld.1 hheld.2)
  unfold Contract.block
  rw [Extent.holds_mk]
  omega

theorem SameElsewhere.symm {m m' : Memory} (h : D.SameElsewhere m m') : D.SameElsewhere m' m :=
    fun b hb => (h b hb).symm

/-- The layout speaks of headers the tables do not reach. -/
theorem Process.Layout.congr (h : P.Layout D s entry) (helf : t.elfFile = s.elfFile)
    (hsame : D.SameElsewhere s.ram.mem t.ram.mem) : P.Layout D t entry := by
  cases h with
  | elf htype hF hheaders =>
    refine .elf htype (by rw [helf]; exact hF) fun hstable => ?_
    have hstable' := hstable.congr (SameElsewhere.symm hsame)
    rw [hheaders hstable', hstable'.headersFrom hsame]
  | flat htype => exact .flat htype

/-- A process with its image, its stack, its task and a directory that maps them. -/
structure Mapped (C : Contract A) (vol : Volume) (filename : List UInt8) (D : DirectoryBlocks) (chunk : Nat)
    (entry : Nat → Nat) (s : Kernel H) (P : Process) (other : Nat) : Prop where
  directory : s.taskList.directory P.task = some chunk
  chunkOf : ChunkOf D chunk s.ram.mem
  tables : Tables D entry s.ram.mem
  image : P.ImageOf C vol filename s other
  room : bkeTaskUserStackSize ≤ C.pages s.ram P.stack * heapBlockSize
  layout : P.Layout D s entry

/-- `process_load_for_slot` from `process_load_data` up to `process_map_memory`, with the result if it ends before. -/
def loadUnmapped (A : Allocator H) (vol : Volume) (fd : Int) (filename : List UInt8) (processSlot : Int)
    (process : Nat) : Program Stop (Kernel H) (Option Int) := do
  let res ← processLoadData A vol fd filename process
  if res < 0 then return some res
  let programStackPtr ← onRam (kzalloc A bkeTaskUserStackSize)
  if programStackPtr = 0 then return some (-enomem)
  let p ← loadProcess process
  storeProcess process {p with
    stack := programStackPtr, filename := filename.take (fsMaxPathLen - 1), id := u32OfInt processSlot}
  let task ← newTask A process
  if task = 0 then return some (s32 task)
  let p ← loadProcess process
  storeProcess process {p with task := task}
  return none

/-- A process that is not mapped yet is mapped. -/
def mapUnmapped (process : Nat) : Option Int → Program Stop (Kernel H) (Int × Bool)
  | some res => return (res, false)
  | none => do
    let res ← processMapMemory process
    return (res, true)

theorem loadInto_eq (vol : Volume) (fd : Int) (filename : List UInt8) (processSlot : Int)
    (process : Nat) : loadInto A vol fd filename processSlot process =
      loadUnmapped A vol fd filename processSlot process >>= mapUnmapped process := by
  unfold loadInto loadUnmapped
  simp only [bind_assoc]
  refine bind_congr fun res => ?_
  split
  · simp only [pure_bind, mapUnmapped]
  · simp only [bind_assoc]
    refine bind_congr fun programStackPtr => ?_
    split
    · simp only [pure_bind, mapUnmapped]
    · simp only [bind_assoc]
      refine bind_congr fun p => bind_congr fun _ => bind_congr fun task => ?_
      split
      · simp only [pure_bind, mapUnmapped]
      · simp only [bind_assoc, pure_bind, mapUnmapped]
/-- The last lines of `loadUnmapped`: the task. -/
def giveTask (A : Allocator H) (process : Nat) : Program Stop (Kernel H) (Option Int) := do
  let task ← newTask A process
  if task = 0 then return some (s32 task)
  let p ← loadProcess process
  storeProcess process {p with task := task}
  return none

/-- A process with its image and its stack gets a task with a fresh directory. -/
theorem giveTask_spec {u : Kernel H} (hP : u.process process = some P)
    (h : Taken C r₀ u.ram (P.stack :: P.ptr :: other :: xs)) (himage : P.ImageOf C vol filename u other)
    (hroom : bkeTaskUserStackSize ≤ C.pages u.ram P.stack * heapBlockSize) (hframe : LoadFrame C r₀ process s u) :
    Ensures (giveTask A process) (fun out t => out = none ∧ LoadFrame C r₀ process s t ∧
      ∃ P', t.process process = some P' ∧ P'.allocations = P.allocations ∧ P'.task ≠ 0 ∧
        ∃ D chunk, Unmapped C vol filename D chunk t P' other ∧
          Taken C r₀ t.ram (D.blocks chunk ++ P'.task :: P'.stack :: P'.ptr :: other :: xs)) u := by
  unfold giveTask
  refine wp.bind (newTask_spec (Taken.refl h.valid)) fun task v hv => ?_
  obtain ⟨D, chunk, r₃, tasks, htask, rfl, hdirectory, h₃, hchunk, htables⟩ := hv
  rw [if_neg htask, wp_bind]
  refine (wp_loadProcess (by exact hP)).mpr ?_
  rw [wp_bind]
  refine (wp_storeProcess (by exact hP)).mpr ?_
  have h₄ : Taken C r₀ r₃ (D.blocks chunk ++ task :: P.stack :: P.ptr :: other :: xs) := by
    have h₄ := h.trans h₃
    rw [List.append_assoc] at h₄
    exact h₄
  have hframe₃ : LoadFrame C r₀ process u {u.withRam r₃ with taskList := tasks} := by
    refine ⟨rfl, rfl, rfl, fun _ _ => rfl, fun _ _ => rfl, fun q hq => ?_⟩
    show tasks.directory q = _
    have hfresh := (h₄.fresh task (by simp)).1
    rw [hdirectory, Function.update_of_ne fun heq : q = task => hq (by rw [heq]; exact hfresh)]
  refine ⟨rfl, (hframe.trans hframe₃).putProcess _, {P with task := task}, Function.update_self .., rfl, htask, D, chunk,
    ⟨h₃.valid, ?_, hchunk, htables, himage.congr rfl rfl rfl rfl fun _ _ _ hholds => hholds.taken h₃,
      (h₄.fresh P.stack (by simp)).2, ?_⟩, h₄⟩
  · show tasks.directory task = _
    rw [hdirectory, Function.update_self]
  · show bkeTaskUserStackSize ≤ C.pages r₃ P.stack * heapBlockSize
    rw [h₃.kept P.stack (h.fresh P.stack (by simp)).2]
    exact hroom

/-- Before it is mapped a process has its image, its stack, its task and a fresh directory; or the load ends. -/
theorem loadUnmapped_spec {fd : Int} {slot : Int} (hP : s.process process = some P)
    (hnull : P.task = 0 ∧ P.stack = 0 ∧ P.ptr = 0) (h : Taken C r₀ s.ram xs) :
    Ensures (loadUnmapped A vol fd filename slot process) (fun out t =>
      (out = some (-enomem) ∧ Unstarted A fd s t) ∨
      (¬ Refused A sizeofElfFile s.ram ∧ LoadFrame C r₀ process s t ∧ ∃ P' other, t.process process = some P' ∧
        P'.allocations = P.allocations ∧
        ((∃ res, out = some res ∧ res < 0 ∧ P'.task = 0 ∧
            Taken C r₀ t.ram (nonNull P'.stack ++ (nonNull P'.ptr ++ other :: xs))) ∨
          (out = none ∧ P'.task ≠ 0 ∧ ∃ D chunk, Unmapped C vol filename D chunk t P' other ∧
            Taken C r₀ t.ram (D.blocks chunk ++ P'.task :: P'.stack :: P'.ptr :: other :: xs))))) s := by
  obtain ⟨htask, hstack, hptr⟩ := hnull
  unfold loadUnmapped
  refine wp.bind (processLoadData_spec hP h) fun res t ht => ?_
  rcases ht with ⟨rfl, hunstarted⟩ | ⟨hstarted, hframe, other, hdata⟩
  · rw [if_pos (by decide)]
    exact .inl ⟨rfl, hunstarted⟩
  rcases hdata with ⟨hneg, hP', h₁⟩ | ⟨rfl, P', hP', hbut, himage, h₁⟩
  · rw [if_pos hneg]
    refine .inr ⟨hstarted, hframe, P, other, hP', rfl, .inl ⟨res, rfl, hneg, htask, ?_⟩⟩
    rw [hstack, hptr]
    exact h₁
  have hptr' : P'.ptr ≠ 0 := Contract.ne_null h₁.valid (h₁.fresh P'.ptr (by simp)).2
  rw [if_neg (by decide)]
  refine wp.bind (Ensures.onRam ((Taken.refl h₁.valid).kzalloc _)) fun stack u hu => ?_
  obtain ⟨r₂, rfl, hmemory⟩ := hu
  split
  · rename_i hnull
    rcases hmemory with ⟨_, h₂⟩ | ⟨hne, _⟩
    · refine .inr ⟨hstarted, hframe.withRam r₂, P', other, hP', hbut.allocations,
        .inl ⟨-enomem, rfl, by decide, hbut.task.trans htask, ?_⟩⟩
      rw [hbut.stack, hstack, nonNull_ne hptr']
      exact h₁.trans h₂
    · exact absurd hnull hne
  rename_i hne
  rcases hmemory with ⟨hnull, _⟩ | ⟨_, h₂, hroom, _⟩
  · exact absurd hnull hne
  rw [wp_bind]
  refine (wp_loadProcess (s := t.withRam r₂) hP').mpr ?_
  rw [wp_bind]
  refine (wp_storeProcess (s := t.withRam r₂) hP').mpr ?_
  -- the stack is there
  have himage₂ : ({P' with
      stack := stack, filename := filename.take (fsMaxPathLen - 1), id := u32OfInt slot} : Process).ImageOf C vol filename
      ((t.withRam r₂).putProcess process (some {P' with
        stack := stack, filename := filename.take (fsMaxPathLen - 1), id := u32OfInt slot})) other :=
    himage.congr rfl rfl rfl rfl fun _ _ _ hholds => hholds.taken h₂
  refine (giveTask_spec (Function.update_self ..) (h₁.trans h₂) himage₂ hroom
    ((hframe.withRam r₂).putProcess _)).mono fun out v hv => ?_
  obtain ⟨hnone, hframe₃, P₃, hP₃, halloc, htask₃, D, chunk, hunmapped, h₃⟩ := hv
  exact .inr ⟨hstarted, hframe₃, P₃, other, hP₃, halloc.trans hbut.allocations,
    .inr ⟨hnone, htask₃, D, chunk, hunmapped, h₃⟩⟩

theorem loadInto_outcome {fd : Int} {slot : Int} (hP : s.process process = some P)
    (hnull : P.task = 0 ∧ P.stack = 0 ∧ P.ptr = 0) (h : Taken C r₀ s.ram xs) :
    Ensures (loadInto A vol fd filename slot process) (fun out t =>
      (out = (-enomem, false) ∧ Unstarted A fd s t) ∨
      (¬ Refused A sizeofElfFile s.ram ∧ LoadFrame C r₀ process s t ∧ ∃ P' other, t.process process = some P' ∧
        P'.allocations = P.allocations ∧
        ((out.1 < 0 ∧ ∃ ts, TaskBlocks C t P'.task ts ∧
            Taken C r₀ t.ram (ts ++ (nonNull P'.stack ++ (nonNull P'.ptr ++ other :: xs)))) ∨
          (out = (0, true) ∧ ∃ D chunk entry, Mapped C vol filename D chunk entry t P' other ∧
            Taken C r₀ t.ram (D.blocks chunk ++ P'.task :: P'.stack :: P'.ptr :: other :: xs))))) s := by
  rw [loadInto_eq]
  refine wp.bind (loadUnmapped_spec hP hnull h) fun out t ht => ?_
  rcases ht with ⟨rfl, hunstarted⟩ | ⟨hstarted, hframe, P', other, hP', halloc, hcases⟩
  · exact .inl ⟨rfl, hunstarted⟩
  rcases hcases with ⟨res, rfl, hneg, htask, h₁⟩ | ⟨rfl, htask, D, chunk, hunmapped, h₁⟩
  · exact .inr ⟨hstarted, hframe, P', other, hP', halloc, .inl ⟨hneg, [], .none htask, h₁⟩⟩
  have hlive : ∀ b, b ∈ D.blocks chunk ++ P'.task :: P'.stack :: P'.ptr :: other :: xs → C.pages t.ram b ≠ 0 := fun b hb =>
    (h₁.fresh b hb).2
  refine wp.bind (processMapMemory_spec hP' hunmapped) fun res v hv => ?_
  obtain ⟨mem, entry, rfl, hsame, htables, hres⟩ := hv
  -- the mapping stays in the tables
  have h₂ : Taken C r₀ ⟨t.ram.heap, mem⟩ (D.blocks chunk ++ P'.task :: P'.stack :: P'.ptr :: other :: xs) := by
    refine h₁.write fun b hb => ?_
    have hin : D.InTables b := by
      by_contra hout
      exact hb (hsame b hout)
    obtain ⟨i, hi, hheld⟩ := hin
    have hmem : D.tables i ∈ D.blocks chunk := DirectoryBlocks.mem_blocks.mpr (.inr (.inr ⟨i, hi, rfl⟩))
    rw [Extent.holds_mk] at hheld
    exact ⟨D.tables i, List.mem_append_left _ hmem,
      Contract.holds_page (hlive _ (List.mem_append_left _ hmem)) hheld.1 hheld.2⟩
  refine .inr ⟨hstarted, hframe.withRam _, P', other, hP', halloc, ?_⟩
  rcases hres with hneg | ⟨rfl, hlayout⟩
  · have hstackNe : P'.stack ≠ 0 := Contract.ne_null h₂.valid (h₂.fresh P'.stack (by simp)).2
    have hptrNe : P'.ptr ≠ 0 := Contract.ne_null h₂.valid (h₂.fresh P'.ptr (by simp)).2
    refine .inl ⟨hneg, D.blocks chunk ++ [P'.task], .some D chunk htask hunmapped.directory ?_, ?_⟩
    · exact ⟨hunmapped.chunkOf.congr hsame, ⟨entry, htables⟩, fun p hp => hlive p (List.mem_append_left _ hp),
        (List.nodup_append.mp h₂.nodup).1⟩
    · rw [nonNull_ne hstackNe, nonNull_ne hptrNe, List.append_assoc]
      exact h₂
  · refine .inr ⟨rfl, D, chunk, entry, ⟨hunmapped.directory, hunmapped.chunkOf.congr hsame, htables, ?_, hunmapped.room,
      hlayout.congr rfl hsame⟩, h₂⟩
    refine hunmapped.image.congr rfl rfl rfl rfl fun addr record haddr hholds => ?_
    refine hholds.sameElsewhere hunmapped.valid (fun i hi => ?_) hsame
    have hmem : D.tables i ∈ D.blocks chunk := DirectoryBlocks.mem_blocks.mpr (.inr (.inr ⟨i, hi, rfl⟩))
    refine ⟨hlive _ (List.mem_append_left _ hmem), fun heq => ?_⟩
    refine (List.nodup_append.mp h₂.nodup).2.2 _ hmem addr ?_ heq.symm
    rcases haddr with rfl | rfl <;> simp

/-! ### The load of a slot -/

/-- A process just loaded: its structure, its blocks, and nothing allocated yet. -/
structure NewProcess (C : Contract A) (vol : Volume) (filename : List UInt8) (r₀ : Ram H) (process : Nat) (P : Process)
    (other : Nat) (D : DirectoryBlocks) (chunk : Nat) (entry : Nat → Nat) (t : Kernel H) : Prop where
  made : t.process process = some P
  allocations : P.allocations = fun _ => ⟨0, 0⟩
  mapped : Mapped C vol filename D chunk entry t P other
  taken : Taken C r₀ t.ram (D.blocks chunk ++ [P.task, P.stack, P.ptr, other, process])

/-- How a load of a free slot ends: without memory for the process, without memory for the first structure
of the ELF loader, failed with a block left behind, or with a new process. -/
inductive LoadOutcome (C : Contract A) (vol : Volume) (junk : Uninitialised) (filename : List UInt8) (slot : Int)
    (s : Kernel H) : Int × Option Nat → Kernel H → Prop where
  | noProcess {r} (h : kzalloc A sizeofProcess s.ram = .ok (0, r)) :
      LoadOutcome C vol junk filename slot s (-enomem, none) (s.withRam r)
  | unstarted {process r u} (hne : process ≠ 0) (h : kzalloc A sizeofProcess s.ram = .ok (process, r))
      (hu : Unstarted A junk.fd ((s.withRam r).putProcess process (some zeroProcess)) u) :
      LoadOutcome C vol junk filename slot s (-enomem, none)
        ((u.withRam (released A process u.ram)).putProcess process none)
  | failed {process r res t other} (hne : process ≠ 0) (h : kzalloc A sizeofProcess s.ram = .ok (process, r))
      (hstarted : ¬ Refused A sizeofElfFile r) (hneg : res < 0) (frame : LoadFrame C s.ram process s t)
      (gone : t.process process = none) (taken : Taken C s.ram t.ram [other]) :
      LoadOutcome C vol junk filename slot s (res, none) t
  | loaded {process r u P other D chunk entry} (hne : process ≠ 0)
    (h : kzalloc A sizeofProcess s.ram = .ok (process, r))
      (hstarted : ¬ Refused A sizeofElfFile r) (hslot : 0 ≤ slot ∧ slot < basicOSMaxProcesses)
      (frame : LoadFrame C s.ram process s u) (new : NewProcess C vol filename s.ram process P other D chunk entry u) :
      LoadOutcome C vol junk filename slot s (0, some process)
        {u with processes := Function.update u.processes slot.toNat process}

/-- The cleanup of a structure with nothing in it. -/
theorem loadCleanup_empty (hne : process ≠ 0) (hP : s.process process = some zeroProcess) :
    Ensures (loadCleanup A process) (fun _ t => t = (s.withRam (released A process s.ram)).putProcess process none) s := by
  have hnull : ∀ x : Program Stop (Kernel H) Unit, when (0 ≠ 0) x = pure () := fun x => when_false (not_not.mpr rfl) x
  unfold loadCleanup
  rw [when_true hne, Ensures, wp_bind, wp_loadProcess hP]
  unfold zeroProcess
  rw [hnull, hnull, hnull]
  rfl

theorem processLoadForSlot_outcome (junk : Uninitialised) (slot : Int) (hvalid : C.Valid s.ram.heap)
    (hfree : s.getProcess slot = 0) :
    Ensures (processLoadForSlot A vol junk filename slot) (LoadOutcome C vol junk filename slot s) s := by
  unfold processLoadForSlot
  rw [Ensures, wp_bind, wp_get, hfree, if_neg (by decide)]
  refine wp.bind (Ensures.onRam ((Ensures.self _ _).and ((Taken.refl hvalid).kzalloc _))) fun process t ht => ?_
  obtain ⟨r, rfl, hrequest, hprocess⟩ := ht
  split
  · rename_i hnull
    subst hnull
    exact .noProcess hrequest
  rename_i hne
  rcases hprocess with ⟨hnull, _⟩ | ⟨_, h₁, _, _⟩
  · exact absurd hnull hne
  rw [wp_bind, wp_modify]
  have hself : ((s.withRam r).putProcess process (some zeroProcess)).process process = some zeroProcess :=
    Function.update_self ..
  have hframe : LoadFrame C s.ram process s ((s.withRam r).putProcess process (some zeroProcess)) :=
    ((LoadFrame.refl s).withRam r).putProcess _
  refine wp.bind (loadInto_outcome hself ⟨rfl, rfl, rfl⟩ h₁) fun out t ht => ?_
  obtain ⟨res, made⟩ := out
  rcases ht with ⟨hout, hunstarted⟩ | ⟨hstarted, hframe', P, other, hP, halloc, hcases⟩
  · obtain ⟨rfl, rfl⟩ := Prod.mk.inj hout
    have hP : t.process process = some zeroProcess := by
      obtain ⟨_, _, files, _, _, rfl⟩ := hunstarted
      exact hself
    dsimp only
    rw [if_pos (by decide)]
    refine wp.bind (loadCleanup_empty hne hP) fun _ u hu => ?_
    subst hu
    exact .unstarted hne hrequest hunstarted
  rcases hcases with ⟨hneg, ts, hts, h₂⟩ | ⟨hout, D, chunk, entry, hmapped, h₂⟩
  · dsimp only at hneg ⊢
    rw [if_pos hneg]
    have h₃ : Taken C s.ram t.ram (ts ++ (nonNull P.stack ++ (nonNull P.ptr ++ process :: [other]))) :=
      h₂.perm (((List.Perm.swap process other []).append_left _).append_left _ |>.append_left _)
    refine wp.bind (loadCleanup_outcome hne hP hts h₃) fun _ u hu => ?_
    obtain ⟨hframe'', hprocess, h₄⟩ := hu
    refine .failed hne hrequest hstarted hneg ((hframe.trans hframe').trans hframe'') ?_ h₄
    rw [hprocess, Function.update_self]
  · obtain ⟨rfl, rfl⟩ := Prod.mk.inj hout
    simp only [Int.lt_irrefl, if_false, Bool.not_true, Bool.false_eq_true]
    unfold setProcess
    rw [wp_bind, wp_bind, wp_when]
    refine ⟨fun _ => trivial, fun hslot => ?_⟩
    exact .loaded hne hrequest hstarted (by omega) (hframe.trans hframe') ⟨hP, halloc, hmapped, h₂⟩

end BasicOS

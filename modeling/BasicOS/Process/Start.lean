import BasicOS.Process.KernelPages
import BasicOS.Process.Rights
import BasicOS.Task.Contexts

/-! A program as it starts.

A load ends with a task that has never run. Its registers are the ones of `task_init`: all zero but for
the entry point, the segments of user mode and a stack pointer at the end of the stack, which is mapped,
writable and full of zeroes (`program_starts`). A flat binary starts at its first byte and sees its file
there, to the last byte; what else it can write is the rest of its last page (`flat_program_view`). -/
namespace BasicOS
open Lib Program

variable {H : Type} {A : Allocator H} {C : Contract A} {r₀ : Ram H} {xs : List Nat} {vol : Volume} {junk : Uninitialised}
  {filename : List UInt8} {s t : Kernel H} {P : Process} {process p : Nat}

/-! ### A process with its task -/

/-- Where the file of a process says that it starts, as `task_init` reads it. -/
def Kernel.entryPoint (s : Kernel H) (P : Process) : Option Nat :=
  if P.filetype = processFormatElf then (s.elfFile P.ptr).map fun F => eEntry s.ram.mem F.elfMemory
  else some bkeTaskProgramVirtualAddr

/-- A process that has not run: its task begins where the file says, with a stack of zeroes. -/
structure Kernel.Begins (s : Kernel H) (p : Nat) (P : Process) (T : Task) (eip : Nat) : Prop where
  made : s.process p = some P
  task : s.taskList.tasks P.task = some T
  owner : T.process = p
  registers : T.registers = startRegisters eip
  entry : s.entryPoint P = some eip
  stack : ∀ i, i < bkeTaskUserStackSize → s.ram.mem (P.stack + i) = 0

theorem programEntry_entryPoint (hP : s.process process = some P) :
    Ensures (programEntry process) (fun eip t => t = s ∧ s.entryPoint P = some eip) s := by
  unfold programEntry Kernel.entryPoint
  rw [Ensures, wp_bind]
  refine (wp_loadProcess hP).mpr ?_
  split
  · cases hF : s.elfFile P.ptr with
    | none =>
      rw [wp_bind]
      exact (wp_error (by unfold loadElfFile; rw [hF])).mpr trivial
    | some F =>
      rw [wp_bind]
      exact (wp_loadElfFile hF).mpr ⟨rfl, rfl⟩
  · exact ⟨rfl, rfl⟩

attribute [local irreducible] genPaging4gb

/-- A new task goes into the list as `task_new` has it, with the entry point of the file. -/
theorem newTask_links {Q : Nat → Nat → TaskList → Prop} (hP : s.process process = some P) (hvalid : C.Valid s.ram.heap)
    (hnew : ∀ task pageDirectory eip, task ≠ 0 → pageDirectory ≠ 0 →
      Ensures (taskNew task pageDirectory eip process) (Q eip) s.taskList) :
    Ensures (newTask A process) (fun task t => ∃ eip, t.entryPoint P = some eip ∧ Q eip task t.taskList) s := by
  unfold newTask
  refine wp.bind (Ensures.onRam ((Taken.refl hvalid).kzalloc _)) fun task t ht => ?_
  obtain ⟨r₁, rfl, htask⟩ := ht
  rw [wp_bind, wp_when]
  refine ⟨fun _ => trivial, fun hne => ?_⟩
  rcases htask with ⟨hnull, _⟩ | ⟨_, h₁, _⟩
  · exact absurd hnull hne
  refine wp.bind (Ensures.onRam (genPaging4gb_spec (r := r₁) h₁.valid
    (show pagingMasksIsPresent ||| pagingMasksAccessAll < 2 ^ 8 by decide) (by decide))) fun chunk t ht => ?_
  obtain ⟨r₂, rfl, D, h₂, _⟩ := ht
  refine wp.bind (programEntry_entryPoint (P := P) (by exact hP)) ?_
  rintro eip t ⟨rfl, hentry⟩
  have hnull : chunk ≠ 0 := Contract.ne_null h₂.valid (h₂.fresh chunk (DirectoryBlocks.mem_blocks.mpr (.inl rfl))).2
  have hlink : Ensures (taskNew task chunk eip process) (Q eip) ((s.withRam r₁).withRam r₂).taskList :=
    hnew task chunk eip hne hnull
  refine (Ensures.onTasks hlink).mono fun ret t ht => ?_
  obtain ⟨tasks, rfl, hQ⟩ := ht
  exact ⟨eip, hentry, hQ⟩

/-- A process begins with its new task, and the rest of the load leaves it so. -/
theorem begins_atLoad (A : Allocator H) (C : Contract A) (vol : Volume) (filename : List UInt8) (l : TaskList) :
    AtLoad C vol filename l fun s p => ∃ P T eip, s.Begins p P T eip where
  new := by
    intro s process P h
    have hbegun : ∀ task pageDirectory eip, task ≠ 0 → pageDirectory ≠ 0 → Ensures (taskNew task pageDirectory eip process)
        (fun ret l' => l'.context ret = some (startRegisters eip, process)) s.taskList := by
      intro task pageDirectory eip htask hdirectory
      refine (taskNew_context eip process htask hdirectory s.taskList).mono ?_
      rintro ret l' ⟨rfl, hnew⟩
      rw [hnew, Function.update_self]
    refine ((newTask_spec (Taken.refl h.valid)).and (newTask_links h.made h.valid hbegun)).mono fun task t ht => ?_
    obtain ⟨⟨D, chunk, r, tasks, _, rfl, _, htaken, _⟩, eip, hentry, hbegun⟩ := ht
    obtain ⟨T, hT, hstart⟩ := Option.map_eq_some_iff.mp hbegun
    obtain ⟨hregisters, howner⟩ := Prod.mk.inj hstart
    refine ⟨{P with task := task}, T, eip, ⟨Function.update_self .., hT, howner, hregisters, hentry, fun i hi => ?_⟩⟩
    have hbyte := htaken.same P.stack (P.stack + i) h.live (by
      unfold Contract.block
      rw [Extent.holds_mk]
      have hroom := h.room
      omega)
    exact hbyte.trans (h.zero i hi)
  mapped := by
    rintro s mem process P other D chunk r₀ xs hP hunmapped htaken hsame ⟨P', T, eip, h⟩
    obtain rfl : P' = P := Option.some_inj.mp (h.made.symm.trans hP)
    -- neither the stack nor the image is in the tables
    have hapart : ∀ b, b ∈ P'.task :: P'.stack :: P'.ptr :: other :: xs → ∀ i, i < C.pages s.ram b * heapBlockSize →
        mem (b + i) = s.ram.mem (b + i) := by
      intro b hb i hi
      refine hsame (b + i) ?_
      rintro ⟨j, hj, hheld⟩
      have htable : D.tables j ∈ D.blocks chunk := DirectoryBlocks.mem_blocks.mpr (.inr (.inr ⟨j, hj, rfl⟩))
      have hlive := (htaken.fresh b (List.mem_append_right _ hb)).2
      have hlive' := (htaken.fresh _ (List.mem_append_left _ htable)).2
      rw [Extent.holds_mk] at hheld
      refine C.blocks_apart htaken.valid hlive hlive' ?_ (b + i) ?_
        (Contract.holds_page hlive' hheld.1 hheld.2)
      · exact fun heq => (List.nodup_append.mp htaken.nodup).2.2 _ htable b hb heq.symm
      · unfold Contract.block
        rw [Extent.holds_mk]
        omega
    refine ⟨P', T, eip, ⟨h.made, h.task, h.owner, h.registers, ?_, fun i hi => ?_⟩⟩
    · rw [← h.entry]
      unfold Kernel.entryPoint
      cases hunmapped.image with
      | flat hflat _ _ =>
        rw [hflat]
        rfl
      | @elf F record helf hF hmemory hholds =>
        have hlive : C.pages s.ram other ≠ 0 := (htaken.fresh other (by simp)).2
        rw [if_pos helf, if_pos helf]
        show (s.elfFile P'.ptr).map _ = _
        rw [hF, Option.map_some, Option.map_some, hmemory]
        refine congrArg some (read32_congr fun a h1 h2 => ?_)
        obtain ⟨i, rfl⟩ := Nat.exists_eq_add_of_le (show other ≤ a by omega)
        exact hapart other (by simp) i (by simp only [heapBlockSize]; omega)
    · exact (hapart P'.stack (by simp) i (Nat.lt_of_lt_of_le hi hunmapped.room)).trans (h.stack i hi)
  entered := by
    rintro s processes current process ⟨P, T, eip, h⟩
    exact ⟨P, T, eip, ⟨h.made, h.task, h.owner, h.registers, h.entry, h.stack⟩⟩

/-! ### What is mapped -/

/-- The words of a range that was mapped last. -/
theorem mapEntries_pagesFrom {vAddr pAddr count bits : Nat} (hv : vAddr + count * pagingPageSize ≤ 2 ^ 32)
    (hp : pAddr + count * pagingPageSize ≤ 2 ^ 32) (halign : vAddr % pagingPageSize = 0) (entry : Nat → Nat) (k : Nat) :
    mapEntries entry bits (pagesFrom vAddr pAddr count) k =
      if vAddr ≤ k * pagingPageSize ∧ k * pagingPageSize < vAddr + count * pagingPageSize then
        pAddr + (k * pagingPageSize - vAddr) + bits
      else entry k := by
  rcases mapEntries_apply entry bits (pagesFrom vAddr pAddr count) k with ⟨m, hm, hpage, heq⟩ | ⟨hnone, heq⟩
  · obtain ⟨i, hi, rfl⟩ := (mem_pagesFrom hv hp).mp hm
    simp only [pagingPageSize] at *
    rw [heq, if_pos (by omega)]
    omega
  · rw [heq, if_neg]
    rintro ⟨hle, hlt⟩
    have hmem : (vAddr + (k * pagingPageSize - vAddr) / pagingPageSize * pagingPageSize,
        pAddr + (k * pagingPageSize - vAddr) / pagingPageSize * pagingPageSize) ∈ pagesFrom vAddr pAddr count :=
      (mem_pagesFrom hv hp).mpr ⟨_, by simp only [pagingPageSize] at *; omega, rfl⟩
    refine hnone _ hmem ?_
    simp only [pagingPageSize] at *
    omega

/-- The word of a page of the stack. -/
theorem stackEntries_apply {stack : Nat} (hfits : stack + bkeTaskUserStackSize ≤ 2 ^ 32) (entry : Nat → Nat) (k : Nat) :
    stackEntries entry stack k =
      if bkeTaskProgramVirtualStackAddrEnd ≤ k * pagingPageSize ∧ k * pagingPageSize < bkeTaskProgramVirtualStackAddrStart
      then stack + (k * pagingPageSize - bkeTaskProgramVirtualStackAddrEnd) + rightsWritable
      else entry k :=
  mapEntries_pagesFrom (by decide) hfits (by decide) entry k

/-- The word of a page of a flat binary. -/
theorem flatEntries_apply {ptr size : Nat} (halign : ptr % pagingPageSize = 0) (hptr : bkeTaskProgramVirtualAddr ≤ ptr)
    (hfits : ptr + size + pagingPageSize ≤ 2 ^ 32) (entry : Nat → Nat) (k : Nat) :
    flatEntries entry ptr size k =
      if bkeTaskProgramVirtualAddr ≤ k * pagingPageSize ∧ k * pagingPageSize < bkeTaskProgramVirtualAddr + size then
        ptr + (k * pagingPageSize - bkeTaskProgramVirtualAddr) + rightsWritable
      else entry k := by
  obtain ⟨hle, hlt, hrounded⟩ := pagingAlignAddress_of_le hfits
  have hsum : u32 (ptr + size) = ptr + size := u32_of_lt (by simp only [pagingPageSize] at hfits; omega)
  unfold flatEntries
  rw [hsum]
  generalize hcount : (pagingAlignAddress (ptr + size) - ptr) / pagingPageSize = count
  have hpages : size ≤ count * pagingPageSize ∧ count * pagingPageSize < size + pagingPageSize := by
    simp only [pagingPageSize] at *
    omega
  have hv : bkeTaskProgramVirtualAddr + count * pagingPageSize ≤ 2 ^ 32 := by omega
  have hp : ptr + count * pagingPageSize ≤ 2 ^ 32 := by omega
  rw [mapEntries_pagesFrom hv hp (by decide)]
  refine if_congr ?_ rfl rfl
  simp only [bkeTaskProgramVirtualAddr, pagingPageSize] at *
  omega

/-- A process that was loaded, with its directory and what it maps. -/
theorem Loads.opened (h : Loads C vol filename s p t) (hopens : t.Opens p) :
    ∃ P other D chunk entry, t.process p = some P ∧ t.directoryOf p = some D.directory ∧
      OpenDirectory t.ram.mem D.directory ∧ Mapped C vol filename D chunk entry t P other ∧
      C.Valid t.ram.heap ∧ C.pages t.ram P.stack ≠ 0 := by
  cases h with
  | @mk P other D chunk entry u processes current frame new =>
    obtain ⟨T, hT, hdir⟩ := loadTask_chunk new.mapped.directory
    have hof : Kernel.directoryOf {u with processes := processes, currentProcess := current} p = some D.directory := by
      unfold Kernel.directoryOf
      show (do let P ← u.process p; _) = _
      rw [new.made]
      show (do let T ← u.taskList.tasks P.task; _) = _
      rw [hT, ← new.mapped.chunkOf.directory, ← hdir]
      rfl
    obtain ⟨d, hd, hopen⟩ := hopens
    obtain rfl : d = D.directory := Option.some_inj.mp (hd.symm.trans hof)
    have hmapped := new.mapped
    exact ⟨P, other, D, chunk, entry, new.made, hof, hopen, ⟨hmapped.directory, hmapped.chunkOf, hmapped.tables,
      hmapped.image.congr rfl rfl rfl rfl fun _ _ _ hholds => hholds, hmapped.room,
      hmapped.layout.congr rfl fun _ _ => rfl⟩, new.taken.valid, (new.taken.fresh P.stack (by simp)).2⟩

/-- The stack is mapped last, whatever the image. -/
theorem Mapped.stack {D : DirectoryBlocks} {chunk other : Nat} {entry : Nat → Nat}
    (h : Mapped C vol filename D chunk entry t P other) (hvalid : C.Valid t.ram.heap) (hlive : C.pages t.ram P.stack ≠ 0)
    (hopen : OpenDirectory t.ram.mem D.directory) {i : Nat} (hi : i < bkeTaskUserStackSize) :
    UserWritable t.ram.mem D.directory (bkeTaskProgramVirtualStackAddrEnd + i) ∧
      physicalAddress t.ram.mem D.directory (bkeTaskProgramVirtualStackAddrEnd + i) = P.stack + i := by
  obtain ⟨halign, _, hlast⟩ := C.placed hvalid hlive
  change P.stack + C.pages t.ram P.stack * heapBlockSize ≤ _ at hlast
  have hroom := h.room
  have hfits : P.stack + bkeTaskUserStackSize ≤ 2 ^ 32 :=
    Nat.le_trans (by omega) (show heapBaseAddress + heapMaxHeapSize ≤ 2 ^ 32 by decide)
  have hstack : ∃ lower, entry = stackEntries lower P.stack := by
    cases h.layout with
    | elf => exact ⟨_, rfl⟩
    | flat => exact ⟨_, rfl⟩
  obtain ⟨lower, rfl⟩ := hstack
  have hword := stackEntries_apply hfits lower ((bkeTaskProgramVirtualStackAddrEnd + i) / pagingPageSize)
  rw [if_pos (by
    simp only [bkeTaskProgramVirtualStackAddrEnd, bkeTaskProgramVirtualStackAddrStart, bkeTaskUserStackSize,
      pagingPageSize] at *
    omega)] at hword
  obtain ⟨hwritable, hphysical⟩ := h.tables.writable_page hopen (by
    simp only [bkeTaskProgramVirtualStackAddrEnd, bkeTaskProgramVirtualStackAddrStart, bkeTaskUserStackSize] at *
    omega) (by
    simp only [bkeTaskProgramVirtualStackAddrEnd, bkeTaskProgramVirtualStackAddrStart, bkeTaskUserStackSize,
      pagingPageSize, heapBlockSize] at *
    omega) (by
    simp only [bkeTaskProgramVirtualStackAddrEnd, bkeTaskProgramVirtualStackAddrStart, bkeTaskUserStackSize,
      pagingPageSize] at *
    omega) hword
  refine ⟨hwritable, hphysical.trans ?_⟩
  simp only [bkeTaskProgramVirtualStackAddrEnd, bkeTaskProgramVirtualStackAddrStart, bkeTaskUserStackSize,
    pagingPageSize] at *
  omega

/-! ### Where a program starts -/

/-- The load of the program that `flatVolume` has. -/
theorem flat_loaded : ∃ t P, processLoad ladder flatVolume ⟨0, 0⟩ pathX noProcesses = .ok ((0, some 0x1000000), t) ∧
    t.process 0x1000000 = some P ∧ P.filetype = processFormatFbin := by
  have hflat := programs_loaded.1
  unfold flatLoaded at hflat
  split at hflat
  · rename_i out t hload
    obtain ⟨hout, hprocess⟩ := Prod.mk.inj hflat
    obtain ⟨P, hP, hformat⟩ := Option.map_eq_some_iff.mp hprocess
    obtain rfl := Option.some_inj.mp hout
    exact ⟨t, P, hload, hP, (Prod.mk.inj hformat).1⟩
  · cases hflat

/-- Where the file says that its program starts. -/
inductive FileEntry (vol : Volume) (record : FatDirectoryItem) (P : Process) (eip : Nat) : Prop where
  | flat (filetype : P.filetype = processFormatFbin) (eip : eip = bkeTaskProgramVirtualAddr)
  | elf (filetype : P.filetype = processFormatElf)
      (eip : 28 ≤ record.fileSize → eip = eEntry (fileMemory (fileRead vol record)) 0)

/-- The entry point in memory is the one of the file. -/
theorem Kernel.Begins.fileEntry {T : Task} {eip other : Nat} (h : t.Begins p P T eip)
    (himage : P.ImageOf C vol filename t other) (hvalid : C.Valid t.ram.heap) :
    ∃ record, vol.Names filename record ∧ FileEntry vol record P eip := by
  have hentry := h.entry
  unfold Kernel.entryPoint at hentry
  cases himage with
  | @flat record hflat _ hholds =>
    rw [if_neg (by rw [hflat]; decide)] at hentry
    exact ⟨record, hholds.names, .flat hflat (Option.some_inj.mp hentry).symm⟩
  | @elf F record helf hF hmemory hholds =>
    rw [if_pos helf, hF, Option.map_some, hmemory] at hentry
    refine ⟨record, hholds.names, .elf helf fun hlong => ?_⟩
    have hlong : 24 + 4 ≤ (fileRead vol record).length := by
      rw [length_fileRead]
      omega
    rw [← Option.some_inj.mp hentry]
    exact ((hholds.elfImage hvalid).read32_eq hlong).symm

/-- **How a program starts.** Its task has the registers of `task_init`, with the entry point of its file, and the
stack that `esp` ends is mapped, writable and zero. -/
theorem program_starts (hvalid : C.Valid s.ram.heap)
    (hload : processLoad A vol junk filename s = .ok ((0, some p), t)) :
    ∃ P T eip directory record, t.Begins p P T eip ∧ vol.Names filename record ∧ FileEntry vol record P eip ∧
      t.directoryOf p = some directory ∧ ∀ i, i < bkeTaskUserStackSize →
        UserWritable t.ram.mem directory (bkeTaskProgramVirtualStackAddrEnd + i) ∧
        userView t.ram.mem directory (bkeTaskProgramVirtualStackAddrEnd + i) = 0 := by
  have hopens := (processLoad_establishes (opens_atLoad A C vol filename _) junk hvalid).returned hload (Int.le_refl 0) p rfl
  obtain ⟨P, T, eip, hbegins⟩ :=
    (processLoad_establishes (begins_atLoad A C vol filename _) junk hvalid).returned hload (Int.le_refl 0) p rfl
  obtain ⟨P', other, D, chunk, entry, hP', hdirectory, hopen, hmapped, hvalid', hlive⟩ :=
    (processLoad_made hvalid hload).opened hopens
  obtain rfl : P' = P := Option.some_inj.mp (hP'.symm.trans hbegins.made)
  obtain ⟨record, hnames, hentry⟩ := hbegins.fileEntry hmapped.image hvalid'
  refine ⟨P', T, eip, D.directory, record, hbegins, hnames, hentry, hdirectory, fun i hi => ?_⟩
  obtain ⟨hwritable, hphysical⟩ := hmapped.stack hvalid' hlive hopen hi
  refine ⟨hwritable, ?_⟩
  unfold userView
  rw [Nat.mod_eq_of_lt (by
    simp only [bkeTaskProgramVirtualStackAddrEnd, bkeTaskProgramVirtualStackAddrStart, bkeTaskUserStackSize] at *
    omega), hphysical]
  exact hbegins.stack i hi

/-- The program of `flatVolume`, which is none of ELF. -/
theorem program_starts_flat : ∃ t P T eip directory record,
    processLoad ladder flatVolume ⟨0, 0⟩ pathX noProcesses = .ok ((0, some 0x1000000), t) ∧
    t.Begins 0x1000000 P T eip ∧ FileEntry flatVolume record P eip ∧
    UserWritable t.ram.mem directory (bkeTaskProgramVirtualStackAddrEnd + 0x3FFF) ∧
    userView t.ram.mem directory (bkeTaskProgramVirtualStackAddrEnd + 0x3FFF) = 0 := by
  obtain ⟨t, _, hload, _⟩ := flat_loaded
  obtain ⟨P, T, eip, directory, record, hbegins, _, hentry, _, hstack⟩ :=
    program_starts (C := ladderContract) noProcesses_valid hload
  exact ⟨t, P, T, eip, directory, record, hload, hbegins, hentry, hstack 0x3FFF (by decide)⟩

/-! ### Flat binaries -/

/-- A directory that shows a file from 0x400000 on, and below it the stack. -/
structure FlatView (vol : Volume) (record : FatDirectoryItem) (mem : Memory) (directory : Nat) : Prop where
  image : ∀ k, k < record.fileSize → UserWritable mem directory (bkeTaskProgramVirtualAddr + k) ∧
    some (userView mem directory (bkeTaskProgramVirtualAddr + k)) = (fileRead vol record)[k]?
  elsewhere : ∀ v, v < 2 ^ 32 →
    ¬ (bkeTaskProgramVirtualStackAddrEnd ≤ v ∧ v < bkeTaskProgramVirtualStackAddrStart) →
    ¬ (bkeTaskProgramVirtualAddr ≤ v ∧ v < pagingAlignAddress (bkeTaskProgramVirtualAddr + record.fileSize)) →
    ¬ UserWritable mem directory v ∧ physicalAddress mem directory v = v

theorem fileRead_getElem? (vol : Volume) (record : FatDirectoryItem) {k : Nat} (hk : k < record.fileSize) :
    (fileRead vol record)[k]? = some ((fileImage vol record).2.getD k 0) := by
  simp [fileRead, hk]

theorem Mapped.flat {D : DirectoryBlocks} {chunk other : Nat} {entry : Nat → Nat}
    (h : Mapped C vol filename D chunk entry t P other) (hflat : P.filetype = processFormatFbin)
    (hvalid : C.Valid t.ram.heap) (hlive : C.pages t.ram P.stack ≠ 0) (hopen : OpenDirectory t.ram.mem D.directory) :
    ∃ record, vol.Names filename record ∧ FlatView vol record t.ram.mem D.directory := by
  have htables := h.tables
  cases h.layout with
  | elf helf => exact absurd (hflat.symm.trans helf) (by decide)
  | flat _ =>
    cases h.image with
    | elf helf => exact absurd (hflat.symm.trans helf) (by decide)
    | @flat record _ hsize hholds =>
      have hfits : P.stack + bkeTaskUserStackSize ≤ 2 ^ 32 := by
        obtain ⟨_, _, hlast⟩ := C.placed hvalid hlive
        change P.stack + C.pages t.ram P.stack * heapBlockSize ≤ _ at hlast
        have hroom := h.room
        exact Nat.le_trans (by omega) (show heapBaseAddress + heapMaxHeapSize ≤ 2 ^ 32 by decide)
      obtain ⟨halign, hbase, hlast⟩ := C.placed hvalid hholds.live
      change P.ptr + C.pages t.ram P.ptr * heapBlockSize ≤ _ at hlast
      have hroom := hholds.room
      have hend : P.ptr + P.size ≤ heapBaseAddress + heapMaxHeapSize := by omega
      have hflatWord := @flatEntries_apply P.ptr P.size halign (Nat.le_trans (by decide) hbase) (by
        simp only [heapBaseAddress, heapMaxHeapSize, pagingPageSize] at *
        omega) newEntry
      refine ⟨record, hholds.names, fun k hk => ?_, fun v hv hstack himage => ?_⟩
      · -- the pages of the image are the ones of its block
        have hv : bkeTaskProgramVirtualAddr + k < 2 ^ 32 := by
          simp only [heapBaseAddress, heapMaxHeapSize, bkeTaskProgramVirtualAddr] at *
          omega
        have hword := stackEntries_apply hfits (flatEntries newEntry P.ptr P.size)
          ((bkeTaskProgramVirtualAddr + k) / pagingPageSize)
        rw [if_neg (by
          simp only [bkeTaskProgramVirtualStackAddrStart, bkeTaskProgramVirtualAddr, pagingPageSize]
          omega), hflatWord, if_pos (by
          simp only [bkeTaskProgramVirtualAddr, pagingPageSize]
          omega)] at hword
        obtain ⟨hwritable, hphysical⟩ := htables.writable_page hopen hv (by
          simp only [bkeTaskProgramVirtualAddr, pagingPageSize, heapBlockSize] at *
          omega) (by
          simp only [bkeTaskProgramVirtualAddr, pagingPageSize, heapBaseAddress, heapMaxHeapSize] at *
          omega) hword
        refine ⟨hwritable, ?_⟩
        rw [fileRead_getElem? vol record hk, ← hholds.bytes k hk]
        unfold userView
        rw [Nat.mod_eq_of_lt hv, hphysical]
        refine congrArg (fun a => some (t.ram.mem a)) ?_
        simp only [bkeTaskProgramVirtualAddr, pagingPageSize]
        omega
      · obtain ⟨hle, hlt, hrounded⟩ := @pagingAlignAddress_of_le (bkeTaskProgramVirtualAddr + record.fileSize) (by
          simp only [heapBaseAddress, heapMaxHeapSize, bkeTaskProgramVirtualAddr, pagingPageSize] at *
          omega)
        refine htables.untouched_page hv ?_
        rw [stackEntries_apply hfits, if_neg (by
          simp only [bkeTaskProgramVirtualStackAddrEnd, bkeTaskProgramVirtualStackAddrStart, bkeTaskUserStackSize,
            pagingPageSize] at *
          omega), hflatWord, if_neg]
        simp only [bkeTaskProgramVirtualAddr, pagingPageSize] at *
        omega

/-- **A flat binary as its process sees it**: the file from 0x400000 on, to its last byte, and writable; but for the
stack and the rest of the last page, all other memory is where it is, and not writable. -/
theorem flat_program_view (hvalid : C.Valid s.ram.heap)
    (hload : processLoad A vol junk filename s = .ok ((0, some p), t)) (hP : t.process p = some P)
    (hflat : P.filetype = processFormatFbin) :
    ∃ directory record, vol.Names filename record ∧ t.directoryOf p = some directory ∧
      FlatView vol record t.ram.mem directory := by
  have hopens := (processLoad_establishes (opens_atLoad A C vol filename _) junk hvalid).returned hload (Int.le_refl 0) p rfl
  obtain ⟨P', other, D, chunk, entry, hP', hdirectory, hopen, hmapped, hvalid', hlive⟩ :=
    (processLoad_made hvalid hload).opened hopens
  obtain rfl : P' = P := Option.some_inj.mp (hP'.symm.trans hP)
  obtain ⟨record, hnames, hview⟩ := hmapped.flat hflat hvalid' hlive hopen
  exact ⟨D.directory, record, hnames, hdirectory, hview⟩

/-- The program of `flatVolume`. -/
theorem flat_program_view_loaded : ∃ t directory record,
    processLoad ladder flatVolume ⟨0, 0⟩ pathX noProcesses = .ok ((0, some 0x1000000), t) ∧
    t.directoryOf 0x1000000 = some directory ∧ FlatView flatVolume record t.ram.mem directory := by
  obtain ⟨t, P, hload, hP, hflat⟩ := flat_loaded
  obtain ⟨directory, record, _, hdirectory, hview⟩ :=
    flat_program_view (C := ladderContract) noProcesses_valid hload hP hflat
  exact ⟨t, directory, record, hload, hdirectory, hview⟩

end BasicOS

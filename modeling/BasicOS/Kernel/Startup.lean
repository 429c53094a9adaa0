import BasicOS.Fs.Mount
import BasicOS.Paging.Release
import BasicOS.Process.Kept
import BasicOS.Process.Start

/-! The start of the kernel.

`kernel_main` makes the heap, mounts the disk, maps all memory to itself for the kernel, loads the shell, and returns
to its task. When it gets that far, the task is the shell's and has not run (`shell_starts`). The directory of the
kernel is in blocks that belong to nobody, so it stays as it is: whatever the programs do from then on, the kernel sees
every byte of memory at its own address (`kernel_sees_memory`), which the model of `paging.c`, `process.c` and `task.c`
takes for granted. -/
namespace BasicOS
open Lib Program

variable {H : Type}

/-! ### The heap -/

/-- `kernel_main` begins with such a heap. -/
theorem kheapInit_valid (entries : Int → Nat) : kheapContract.Valid ⟨(kheapInit entries).heap, []⟩ := by
  have hres := Int.le_of_eq (kheapInit_res entries).symm
  have haccepted : (kheapInit entries).heap = _ := makeHeap_accepted hres
  refine ⟨⟨heapReps_start (by decide) hres, fun a ha => by cases ha⟩, ?_, ?_, fun a ha => by cases ha⟩
  · rw [haccepted]
  · rw [haccepted]
    exact (clear_spec _ _).1

/-! ### The first task -/

/-- `task_run_first_task`, with the task whose registers it returns to. -/
def taskRunFirstTask : Program Stop TaskList Nat := do
  let s ← get
  when (s.currentTask = 0) (stop (.panic "Task run failure: No current task to execute!\n"))
  let _ ← taskSwitch s.taskHead
  return s.taskHead

/-! ### The start -/

/-- "0:/shell.elf" -/
def shellPath : List UInt8 := [0x30, 0x3A, 0x2F, 0x73, 0x68, 0x65, 0x6C, 0x6C, 0x2E, 0x65, 0x6C, 0x66]

/-- The kernel with its heap, before anything was asked for. -/
def kernelStart (ram : Ram H) : Kernel H :=
  ⟨⟨ram, fun _ => none⟩, ⟨fun _ => none, 0, 0, 0⟩, fun _ => none, fun _ => none, fun _ => 0, 0⟩

/-- The volume, `kernel_paging_chunk`, and the task that runs first. -/
structure Startup where
  vol : Volume
  kernelPagingChunk : Nat
  task : Nat

/-- `kernel_main` from `disk_search_and_init` to `task_run_first_task`, as far as it asks for memory. -/
def kernelMain (A : Allocator H) (disk : Memory) (junk : Uninitialised) : Program Stop (Kernel H) Startup := do
  let (_, vol) ← onRam (diskSearchAndInit A disk)
  let kernelPagingChunk ← onRam (genPaging4gb A (pagingMasksIsWritable ||| pagingMasksIsPresent ||| pagingMasksAccessAll))
  let (res, _) ← processLoadSwitch A vol junk shellPath
  when (res ≠ 0) (stop (.panic "Failed to load shell.elf"))
  let task ← onTasks taskRunFirstTask
  return ⟨vol, kernelPagingChunk, task⟩

variable {A : Allocator H} {C : Contract A} {disk : Memory} {junk : Uninitialised} {ram r : Ram H} {out : Startup}
  {s : Kernel H} {l : TaskList} {p : Nat}

/-! ### The only task -/

/-- The list begins with the task of the process, which is the current one. -/
def Kernel.Only (s : Kernel H) (p : Nat) : Prop :=
  ∃ P, s.process p = some P ∧ s.taskList.taskHead = P.task ∧ s.taskList.currentTask = P.task

theorem taskNew_first {task pageDirectory : Nat} (eip process : Nat) (htask : task ≠ 0) (hdirectory : pageDirectory ≠ 0)
    (hempty : l.taskHead = 0) : Ensures (taskNew task pageDirectory eip process)
      (fun ret l' => l'.taskHead = ret ∧ l'.currentTask = ret) l := by
  unfold Ensures wp
  rw [taskNew_ok eip process htask hdirectory]
  generalize hput : l.put task (some (initialTask pageDirectory eip process)) = l₁
  have hempty₁ : l₁.taskHead = 0 := hput ▸ hempty
  have hlink : Ensures (taskLink task) (fun _ l' => l'.taskHead = task ∧ l'.currentTask = task) l₁ := by
    unfold taskLink
    rw [Ensures, wp_bind, wp_get, if_pos hempty₁]
    exact ⟨rfl, rfl⟩
  exact wp.bind hlink fun _ _ h => h

/-- The first process that is loaded has the only task. -/
theorem only_atLoad (A : Allocator H) (C : Contract A) (vol : Volume) (filename : List UInt8) (hempty : l.taskHead = 0) :
    AtLoad C vol filename l Kernel.Only where
  new := by
    intro s process P h
    have hfirst : ∀ task pageDirectory eip, task ≠ 0 → pageDirectory ≠ 0 → Ensures (taskNew task pageDirectory eip process)
        (fun ret l' => l'.taskHead = ret ∧ l'.currentTask = ret) s.taskList :=
      fun _ _ eip htask hdirectory => taskNew_first eip process htask hdirectory (h.tasks ▸ hempty)
    refine (newTask_links h.made h.valid hfirst).mono fun task t ht => ?_
    obtain ⟨_, _, hhead, hcurrent⟩ := ht
    exact ⟨{P with task := task}, Function.update_self .., hhead, hcurrent⟩
  mapped := fun _ _ _ _ _ _ _ _ _ _ _ _ _ honly => honly
  entered := fun _ _ _ _ honly => honly

/-- The switch to the first task leaves the list as it is when that task is the current one. -/
theorem taskRunFirstTask_same (h : l.currentTask = l.taskHead) :
    Ensures taskRunFirstTask (fun task l' => task = l.taskHead ∧ l' = l) l := by
  unfold taskRunFirstTask taskSwitch
  have hsame : {l with currentTask := l.taskHead} = l := congrArg (fun task => {l with currentTask := task}) h.symm
  rw [Ensures, wp_bind, wp_get, wp_bind, wp_when]
  refine ⟨fun _ => trivial, fun _ => ?_⟩
  rw [wp_bind, wp_bind, wp_modify, hsame, wp_bind]
  refine (loadTask_context l.taskHead l).mono ?_
  rintro _ _ ⟨rfl, _⟩
  exact ⟨rfl, rfl⟩

/-! ### What the start leaves -/

/-- The kernel has started the shell: what it has itself is in `r`, and the shell was loaded then. -/
structure Starts (C : Contract A) (disk : Memory) (junk : Uninitialised) (out : Startup) (r : Ram H) (p : Nat)
    (s : Kernel H) : Prop where
  valid : C.Valid r.heap
  volume : ∀ priv, out.vol.mounted = some priv → out.vol.disk = disk ∧ fat16Resolve disk = some (.ok priv)
  directory : ∃ D, ChunkOf D out.kernelPagingChunk r.mem ∧ Tables D (identityEntry 7) r.mem ∧
    ∀ b ∈ D.blocks out.kernelPagingChunk, C.pages r b ≠ 0
  load : processLoadSwitch A out.vol junk shellPath (kernelStart r) = .ok ((0, some p), s)
  current : s.currentProcess = p
  task : ∃ P, s.process p = some P ∧ out.task = P.task ∧ s.taskList.currentTask = P.task

theorem kernelMain_starts (hvalid : C.Valid ram.heap) :
    Ensures (kernelMain A disk junk) (fun out s => ∃ r p, Starts C disk junk out r p s) (kernelStart ram) := by
  unfold kernelMain
  refine wp.bind (Ensures.onRam (diskSearchAndInit_spec (Taken.refl hvalid) disk)) fun ⟨mount, vol⟩ t ht => ?_
  obtain ⟨r₁, rfl, ⟨ys, h₁⟩, hmount⟩ := ht
  have hvolume : ∀ priv, vol.mounted = some priv → vol.disk = disk ∧ fat16Resolve disk = some (.ok priv) := by
    intro priv hpriv
    cases mount with
    | none =>
      obtain rfl : vol = ⟨disk, none⟩ := hmount
      cases hpriv
    | some mount =>
      obtain ⟨priv', rfl, hresolve, _⟩ := hmount
      obtain rfl := Option.some_inj.mp hpriv
      exact ⟨rfl, hresolve⟩
  refine wp.bind (Ensures.onRam (genPaging4gb_spec (r := r₁) h₁.valid
    (show pagingMasksIsWritable ||| pagingMasksIsPresent ||| pagingMasksAccessAll < 2 ^ 8 by decide) (by decide)))
    fun chunk t ht => ?_
  obtain ⟨r, rfl, D, h₂, hchunk, htables⟩ := ht
  have hlive : ∀ b ∈ D.blocks chunk, C.pages r b ≠ 0 := fun b hb => (h₂.fresh b hb).2
  show wp _ _ _ (kernelStart r)
  have honly := processLoadSwitch_establishes (s := kernelStart r) (only_atLoad A C vol shellPath rfl) junk h₂.valid
  refine wp.bind ((Ensures.self _ _).and ((processLoadSwitch_loads junk h₂.valid).and honly)) fun ⟨res, process⟩ t ht => ?_
  obtain ⟨hload, hloads, honly⟩ := ht
  rw [wp_bind, wp_when]
  refine ⟨fun _ => trivial, fun hres => ?_⟩
  rcases hloads with hneg | ⟨p, hout, hcurrent, _⟩
  · obtain rfl := not_not.mp hres
    exact absurd hneg (Int.lt_irrefl 0)
  obtain ⟨rfl, rfl⟩ := Prod.mk.inj hout
  obtain ⟨P, hP, hhead, htask⟩ := honly (Int.le_refl 0) p rfl
  refine wp.bind (Ensures.onTasks (taskRunFirstTask_same (htask.trans hhead.symm))) fun task u hu => ?_
  obtain ⟨_, rfl, rfl, rfl⟩ := hu
  exact ⟨r, p, h₂.valid, hvolume, ⟨D, hchunk, htables, hlive⟩, hload, hcurrent, P, hP, hhead, htask⟩

/-- The shell was loaded from the file of its name, and has not run. -/
theorem Starts.begins (h : Starts C disk junk out r p s) : ∃ P T eip record, P.task = out.task ∧ s.Begins p P T eip ∧
    out.vol.Names shellPath record ∧ FileEntry out.vol record P eip := by
  obtain ⟨P, hP, htask, _⟩ := h.task
  have hopens := (processLoadSwitch_establishes (s := kernelStart r) (opens_atLoad A C out.vol shellPath _) junk
    h.valid).returned h.load (Int.le_refl 0) p rfl
  have hbegins := (processLoadSwitch_establishes (s := kernelStart r) (begins_atLoad A C out.vol shellPath _) junk
    h.valid).returned h.load (Int.le_refl 0) p rfl
  have hloads := (processLoadSwitch_loads (C := C) (s := kernelStart r) junk h.valid).returned h.load
  rcases hloads with hneg | ⟨_, hout, _, hloads⟩
  · exact absurd hneg (Int.lt_irrefl 0)
  obtain rfl := Option.some_inj.mp (Prod.mk.inj hout).2
  obtain ⟨P', T, eip, hbegins⟩ := hbegins
  obtain rfl : P' = P := Option.some_inj.mp (hbegins.made.symm.trans hP)
  obtain ⟨P'', other, D, chunk, entry, hP'', _, _, hmapped, hvalid, _⟩ := hloads.opened hopens
  obtain rfl : P'' = P' := Option.some_inj.mp (hP''.symm.trans hP)
  obtain ⟨record, hnames, hentry⟩ := hbegins.fileEntry hmapped.image hvalid
  exact ⟨P'', T, eip, record, htask.symm, hbegins, hnames, hentry⟩

/-- So the disk was mounted. -/
theorem Starts.mounted (h : Starts C disk junk out r p s) :
    ∃ priv, out.vol = ⟨disk, some priv⟩ ∧ fat16Resolve disk = some (.ok priv) := by
  obtain ⟨_, _, _, _, _, _, ⟨priv, hmounted, _⟩, _⟩ := h.begins
  obtain ⟨hdisk, hresolve⟩ := h.volume priv hmounted
  exact ⟨priv, by rw [← hdisk, ← hmounted], hresolve⟩

/-- **The kernel ends its start in the shell.** If `kernel_main` gets to its end, the volume is what the disk holds, and
the task it returns to is the current one: it is the one of the process that was loaded from `0:/shell.elf`, it has
the registers of `task_init`, and begins where the file says. -/
theorem shell_starts (hvalid : C.Valid ram.heap) (hmain : kernelMain A disk junk (kernelStart ram) = .ok (out, s)) :
    ∃ priv P T eip record, out.vol = ⟨disk, some priv⟩ ∧ fat16Resolve disk = some (.ok priv) ∧
      s.taskList.currentTask = out.task ∧ P.task = out.task ∧ s.Begins s.currentProcess P T eip ∧
      out.vol.Names shellPath record ∧ FileEntry out.vol record P eip := by
  obtain ⟨r, p, h⟩ := (kernelMain_starts (C := C) hvalid).returned hmain
  obtain ⟨priv, hvol, hresolve⟩ := h.mounted
  obtain ⟨P, T, eip, record, htask, hbegins, hnames, hentry⟩ := h.begins
  obtain ⟨_, _, hout, hcurrent⟩ := h.task
  exact ⟨priv, P, T, eip, record, hvol, hresolve, hcurrent.trans hout.symm, htask, h.current ▸ hbegins, hnames, hentry⟩

/-! ### A disk with a shell -/

/-- One sector of zeroes, in a file by the name of SHELL.ELF. -/
def shellDisk : Memory := fun a =>
  if a = 13 then 1 else if a = 14 then 1 else if a = 16 then 1 else if a = 17 then 16 else if a = 22 then 1
  else if a = 38 then 0x29 else if a = 516 then 0xFF else if a = 517 then 0xFF
  else if a = 1024 then 0x53 else if a = 1025 then 0x48 else if a = 1026 then 0x45 else if a = 1027 then 0x4C
  else if a = 1028 then 0x4C else if a = 1029 then 0x20 else if a = 1030 then 0x20 else if a = 1031 then 0x20
  else if a = 1032 then 0x45 else if a = 1033 then 0x4C else if a = 1034 then 0x46
  else if a = 1050 then 2 else if a = 1053 then 2 else 0

def shellItems : List FatDirectoryItem :=
  (List.range 16).map fun i => fatDirectoryItemAt shellDisk (1024 + i * sizeofFatDirectoryItem)

theorem shellDisk_resolves : fat16Resolve shellDisk = some (.ok ⟨fatHeader shellDisk, ⟨shellItems, 1, 2, 3⟩⟩) := by
  have htotal : fat16GetTotalItemsForDirectory shellDisk (rootDirSectorPos (fatHeader shellDisk)) = some 1 := by
    decide +kernel
  unfold fat16Resolve fat16GetRootDirectory
  simp only
  rw [htotal, show (fatHeader shellDisk).rootDirectoryEntries = 16 by decide, rootItems_eq (by decide)]
  exact if_neg (by decide)

set_option maxRecDepth 100000 in
/-- Zeroes are no ELF file. -/
theorem shell_inside : (LifeOp.load ⟨shellDisk, some ⟨fatHeader shellDisk, ⟨shellItems, 1, 2, 3⟩⟩⟩ ⟨0, 0⟩ shellPath).Inside := by
  refine .inl fun record hnames => ?_
  obtain ⟨priv, hmounted, i, full, hi, hrecord, _⟩ := hnames
  obtain rfl := Option.some_inj.mp hmounted
  have hi : i < 1 := hi
  obtain rfl : i = 0 := by omega
  obtain rfl : fatDirectoryItemAt shellDisk 1024 = record := Option.some_inj.mp hrecord
  refine .signature 0 (by decide) ?_ (fun j hj => absurd hj (Nat.not_lt_zero j)) ?_
  · rw [length_fileRead]
    decide
  · decide +kernel

def ladderStart : Kernel Ladder := kernelStart ⟨⟨0, []⟩, fun _ => 0⟩

/-- The start from that disk, and a request of the shell. -/
def shellStartup : Option (Nat × Nat × Nat) :=
  match kernelMain ladder shellDisk ⟨0, 0⟩ ladderStart with
  | .error _ => none
  | .ok (out, s) =>
    match processMalloc ladder s.currentProcess 100 s with
    | .error _ => none
    | .ok (ptr, _) => some (out.kernelPagingChunk, s.currentProcess, ptr)

set_option maxRecDepth 100000 in
theorem shellStartup_eq : shellStartup = some (0x201C000, 0x2020000, 0x3080000) := by decide +kernel

theorem exists_shellStartup : ∃ out s t, kernelMain ladder shellDisk ⟨0, 0⟩ ladderStart = .ok (out, s) ∧
    out.kernelPagingChunk = 0x201C000 ∧ s.currentProcess = 0x2020000 ∧
    processMalloc ladder 0x2020000 100 s = .ok (0x3080000, t) := by
  have hfacts := shellStartup_eq
  unfold shellStartup at hfacts
  split at hfacts
  · cases hfacts
  rename_i out s hmain
  split at hfacts
  · cases hfacts
  rename_i ptr t hmalloc
  simp only [Option.some.injEq, Prod.mk.injEq] at hfacts
  obtain ⟨hchunk, hcurrent, rfl⟩ := hfacts
  exact ⟨out, s, t, hmain, hchunk, hcurrent, hcurrent ▸ hmalloc⟩

theorem ladderStart_valid : ladderContract.Valid ladderStart.ram.heap := ladder_sound

theorem shell_starts_zeroes : ∃ out s P T eip record, kernelMain ladder shellDisk ⟨0, 0⟩ ladderStart = .ok (out, s) ∧
    P.task = out.task ∧ s.Begins 0x2020000 P T eip ∧ FileEntry out.vol record P eip := by
  obtain ⟨out, s, _, hmain, _, hcurrent, _⟩ := exists_shellStartup
  obtain ⟨_, P, T, eip, record, _, _, _, htask, hbegins, _, hentry⟩ :=
    shell_starts (C := ladderContract) ladderStart_valid hmain
  exact ⟨out, s, P, T, eip, record, hmain, htask, hcurrent ▸ hbegins, hentry⟩

/-! ### The directory of the kernel -/

/-- Through this directory the address is itself. -/
structure SeesItself (mem : Memory) (directory v : Nat) : Prop where
  present : directoryEntry mem directory v % 2 = 1 ∧ pageEntry mem directory v % 2 = 1
  address : physicalAddress mem directory v = v

theorem Tables.seesItself {D : DirectoryBlocks} {flags : Nat} {mem : Memory} {v : Nat}
    (h : Tables D (identityEntry flags) mem) (hflags : flags < pagingPageSize) (hpresent : flags % 2 = 1) (hv : v < 2 ^ 32) :
    SeesItself mem D.directory v := by
  obtain ⟨hdirectory, hpage⟩ := h.pageEntry hv
  have hword := identityEntry_lt (show v / pagingPageSize < 2 ^ 20 by simp only [pagingPageSize]; omega) hflags
  refine ⟨⟨hdirectory, ?_⟩, ?_⟩
  · rw [hpage]
    simp only [identityEntry, pagingPageSize]
    omega
  · rw [h.physicalAddress hv, and_pageMask hword]
    simp only [identityEntry, pagingPageSize] at *
    omega

end BasicOS

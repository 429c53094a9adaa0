import BasicOS.Isr80h.InvokeSysCommand
import BasicOS.Task.CopyString

/-! The path of a program that a task names.

`sys_process_load_start` and `sys_invoke_sys_command` write `0:/` and then the name into a
buffer of 108 characters. The first copies the name from the task into a buffer of that size
before, and then whole; the second copies at most 107 of its characters. Neither counts the
three in front: a name of more than 104 characters is written past the buffer's end, and is
cut, not refused (`programPath_iff`). -/
namespace BasicOS
open Lib Program

variable {H : Type}

/-- `"0:/"`. -/
abbrev rootPath : List UInt8 := [0x30, 0x3A, 0x2F]

/-! ### The copies, with the addresses they write -/

/-- Memory, and the addresses written to, the last one first. -/
structure Writes where
  mem : Memory
  written : List Nat

/-- `*a = c`. -/
def Writes.put (w : Writes) (a : Nat) (c : UInt8) : Writes := ⟨Function.update w.mem a c, a :: w.written⟩

/-- `strcpy` of a string of the kernel's own. -/
def strcpyLiteral (w : Writes) (dst : Nat) : List UInt8 → Writes
  | [] => w.put dst 0x00
  | c :: rest => strcpyLiteral (w.put dst c) (dst + 1) rest

/-- The loop of `strcpy` with the turns left. -/
def strcpyFrom : Nat → Writes → Nat → Nat → Option Writes
  | 0, _, _, _ => none
  | turns + 1, w, dst, src =>
    if w.mem src = 0 then some (w.put dst 0x00)
    else strcpyFrom turns (w.put dst (w.mem src)) (u32 (dst + 1)) (u32 (src + 1))

/-- After as many turns as there are addresses no zero is left to be found. -/
def strcpy (w : Writes) (dst src : Nat) : Option Writes := strcpyFrom (2 ^ 32) w dst src

/-- The loop of `strncpy` with the characters left, and the zero. -/
def strncpyWritesFrom : Nat → Writes → Nat → Nat → Writes
  | 0, w, dst, _ => w.put dst 0x00
  | n + 1, w, dst, src =>
    if w.mem src = 0 then w.put dst 0x00 else strncpyWritesFrom n (w.put dst (w.mem src)) (dst + 1) (src + 1)

/-- `strncpy` with the addresses it writes. -/
def strncpyWrites (w : Writes) (dst src size : Nat) : Writes :=
  if size = 0 then w else strncpyWritesFrom (size - 1) w dst src

variable {w : Writes} {dst src n : Nat} {text name : List UInt8}

theorem strncpyWritesFrom_mem (n : Nat) (w : Writes) (dst src : Nat) :
    (strncpyWritesFrom n w dst src).mem = strncpyFrom w.mem n dst src := by
  induction n generalizing w dst src with
  | zero => rfl
  | succ n ih =>
    unfold strncpyWritesFrom strncpyFrom
    split
    · rfl
    · exact ih _ _ _

theorem strncpyWrites_mem (w : Writes) (dst src size : Nat) :
    (strncpyWrites w dst src size).mem = strncpy w.mem dst src size := by
  unfold strncpyWrites strncpy
  split
  · rfl
  · exact strncpyWritesFrom_mem _ _ _ _

theorem strcpyLiteral_mem (w : Writes) (dst : Nat) (text : List UInt8) :
    (strcpyLiteral w dst text).mem = store w.mem dst (text ++ [0]) := by
  induction text generalizing w dst with
  | nil => exact (store_singleton w.mem dst 0).symm
  | cons c rest ih => exact (ih _ _).trans (store_update w.mem dst c (rest ++ [0]))

/-- The addresses of the characters and of the zero are written. -/
theorem mem_strcpyLiteral_written {a : Nat} :
    a ∈ (strcpyLiteral w dst text).written ↔ a ∈ w.written ∨ dst ≤ a ∧ a ≤ dst + text.length := by
  induction text generalizing w dst with
  | nil =>
    have hzero : a = dst ↔ dst ≤ a ∧ a ≤ dst := by omega
    simp only [strcpyLiteral, Writes.put, List.mem_cons, List.length_nil, Nat.add_zero, ← hzero, or_comm]
  | cons c rest ih =>
    have hrest : dst ≤ a ∧ a ≤ dst + (rest.length + 1) ↔ a = dst ∨ dst + 1 ≤ a ∧ a ≤ dst + 1 + rest.length := by omega
    simp only [strcpyLiteral, ih, Writes.put, List.mem_cons, List.length_cons, hrest, or_assoc, or_left_comm]

/-- A copy forward, or to where nothing is read, is the copy of the string. -/
theorem strcpyFrom_eq {turns : Nat} (hturns : text.length < turns) (hstored : Stored w.mem src (text ++ [0]))
    (hne : ∀ c ∈ text, c ≠ 0) (hapart : dst ≤ src ∨ src + text.length < dst) (hdst : dst + text.length < 2 ^ 32)
    (hsrc : src + text.length < 2 ^ 32) : strcpyFrom turns w dst src = some (strcpyLiteral w dst text) := by
  induction text generalizing turns w dst src with
  | nil =>
    obtain ⟨turns, rfl⟩ := Nat.exists_eq_succ_of_ne_zero (Nat.ne_of_gt hturns)
    exact if_pos (hstored 0 (by decide))
  | cons c rest ih =>
    obtain ⟨turns, rfl⟩ := Nat.exists_eq_succ_of_ne_zero (Nat.ne_of_gt (Nat.zero_lt_of_lt hturns))
    simp only [List.length_cons] at hturns hapart hdst hsrc
    have hfirst : w.mem src = c := hstored 0 (Nat.succ_pos _)
    have hrest : Stored (Function.update w.mem dst c) (src + 1) (rest ++ [0]) := by
      intro i hi
      have hlen : i ≤ rest.length := by simpa [Nat.lt_succ_iff] using hi
      rw [Function.update_of_ne (by omega), Nat.add_assoc, Nat.add_comm 1]
      exact hstored (i + 1) (by simpa using hi)
    unfold strcpyFrom
    rw [hfirst, if_neg (hne c (List.mem_cons_self ..)), u32_of_lt (by omega), u32_of_lt (by omega)]
    exact ih (by omega) hrest (fun d hd => hne d (List.mem_cons_of_mem _ hd)) (by omega) (by omega) (by omega)

theorem strncpyWritesFrom_eq (hapart : dst ≤ src ∨ src + n ≤ dst) :
    strncpyWritesFrom n w dst src = strcpyLiteral w dst (stringAt w.mem src n) := by
  induction n generalizing w dst src with
  | zero => rfl
  | succ n ih =>
    unfold strncpyWritesFrom stringAt
    split
    · rfl
    · rw [ih (by omega)]
      refine congrArg (strcpyLiteral _ _) (stringAt_congr fun b h1 h2 => ?_)
      exact Function.update_of_ne (by omega) ..

/-! ### The path -/

/-- The buffer with `0:/` and that name. -/
def pathWritten (w : Writes) (path : Nat) (text : List UInt8) : Writes :=
  strcpyLiteral (strcpyLiteral w path rootPath) (path + 3) text

/-- What `process_load_switch` is given. -/
def Writes.string (w : Writes) (path : Nat) : List UInt8 := stringAt w.mem path (2 ^ 32)

theorem pathWritten_stored (w : Writes) (path : Nat) (text : List UInt8) :
    Stored (pathWritten w path text).mem path (rootPath ++ text ++ [0]) := by
  unfold pathWritten
  rw [strcpyLiteral_mem, strcpyLiteral_mem, List.append_assoc, stored_append]
  refine ⟨fun i hi => ?_, stored_store _ _ _⟩
  rw [sameOutside_store _ _ _ (path + i) (by rw [Extent.holds_mk]; exact fun h => absurd h.1 (by simpa using hi))]
  rw [store_at _ _ (Nat.lt_of_lt_of_le hi (by simp)), List.getD_append _ _ _ _ hi]

theorem pathWritten_string (w : Writes) (path : Nat) (hne : ∀ c ∈ text, c ≠ 0) (hlen : text.length ≤ 107) :
    (pathWritten w path text).string path = rootPath ++ text := by
  refine stringAt_of_stored (pathWritten_stored w path text) (fun c hc => ?_) ?_
  · have hroot : ∀ d ∈ rootPath, d ≠ 0 := by simp [rootPath]
    exact (List.mem_append.mp hc).elim (hroot c) (hne c)
  · rw [List.length_append, List.length_cons, List.length_cons, List.length_singleton]
    omega

theorem mem_pathWritten {a path : Nat} {mem : Memory} :
    a ∈ (pathWritten ⟨mem, []⟩ path text).written ↔ path ≤ a ∧ a ≤ path + 3 + text.length := by
  unfold pathWritten
  simp only [mem_strcpyLiteral_written, List.not_mem_nil, false_or, List.length_cons, List.length_nil]
  omega

/-! ### The calls up to the load -/

/-- `sys_process_load_start` up to `process_load_switch`: the buffers `filename` and `path` are
on the kernel's stack, `filenamePtr` is what the program left on its own. -/
def processLoadStartPath (A : Allocator H) (pageDirectory filenamePtr filename path : Nat) :
    Program Stop (Ram H) (Except Int Writes) := do
  let res ← copyStringFromTask A pageDirectory filenamePtr filename fsMaxPathLen
  if res < 0 then return .error res
  match strcpy (strcpyLiteral ⟨(← get).mem, []⟩ path rootPath) (u32 (path + 3)) filename with
  | some w =>
    modify fun s => {s with mem := w.mem}
    return .ok w
  | none => stop .diverges

/-- `sys_process_load_start`; the caller is gone when it returns without an error. -/
def sysProcessLoadStart (A : Allocator H) (vol : Volume) (junk : Uninitialised) (filenamePtr filename path : Nat) :
    Program Stop (Kernel H) Int := do
  let task ← onTasks (loadTask (← get).taskList.currentTask)
  match ← onRam (processLoadStartPath A task.pageDirectory filenamePtr filename path) with
  | .error res => return res
  | .ok w =>
    let (res, process) ← processLoadSwitch A vol junk (w.string path)
    if res < 0 then return res
    let p ← loadProcess (process.getD 0)
    let _ ← onTasks (taskSwitch p.task)
    return res

/-- `sys_invoke_sys_command` up to `process_load_switch`; `dEntry` is the task's directory. -/
def invokeSysCommandPath (mem : Memory) (dEntry pointer path : Nat) : Except Int Writes :=
  let arguments := pagingGetPhysicalAddress mem dEntry pointer
  if arguments = 0 ∨ mem arguments = 0 then .error (-einvarg)
  else .ok (strncpyWrites (strcpyLiteral ⟨mem, []⟩ path rootPath) (path + 3) arguments fsMaxPathLen)

/-- What is promised of a name: it is written into the buffer, and looked up whole if it fits
into 107 characters with `0:/` in front; if not, there is an error. -/
structure PathBuilt (path : Nat) (name : List UInt8) (out : Except Int Writes) : Prop where
  bounded : ∀ w, out = .ok w → ∀ a ∈ w.written, ∃ i, i < fsMaxPathLen ∧ a = path + i
  whole : ∀ w, out = .ok w → 3 + name.length ≤ 107 → w.string path = rootPath ++ name
  refused : 107 < 3 + name.length → ∃ code, code < 0 ∧ out = .error code

theorem pathBuilt_error {path : Nat} {code : Int} (h : code < 0) : PathBuilt path name (.error code) :=
  ⟨fun _ h => (nomatch h), fun _ h => (nomatch h), fun _ => ⟨code, h, rfl⟩⟩

/-- With a text of the right length in the buffer, it is the name's own just when that is short enough. -/
theorem pathBuilt_pathWritten {path : Nat} {mem : Memory} (hne : ∀ c ∈ text, c ≠ 0) (hlen : text.length ≤ 107) :
    PathBuilt path name (.ok (pathWritten ⟨mem, []⟩ path text)) ↔ name.length ≤ 104 ∧ text = name := by
  have hname : (pathWritten ⟨mem, []⟩ path text).string path = rootPath ++ text := pathWritten_string _ path hne hlen
  constructor
  · intro h
    have hshort : name.length ≤ 104 := by
      by_contra hlong
      obtain ⟨code, _, herror⟩ := h.refused (by omega)
      cases herror
    have hwhole := h.whole _ rfl (by omega)
    rw [hname] at hwhole
    exact ⟨hshort, List.append_cancel_left hwhole⟩
  · rintro ⟨hshort, rfl⟩
    refine ⟨fun w hw a ha => ?_, fun w hw _ => ?_, fun hlong => absurd hlong (by omega)⟩
    · cases hw
      obtain ⟨h1, h2⟩ := mem_pathWritten.mp ha
      exact ⟨a - path, by simp only [fsMaxPathLen]; omega, by omega⟩
    · cases hw
      exact hname

/-- A longer text is written past the end of the buffer. -/
theorem pathWritten_overruns {path : Nat} (mem : Memory) (hlong : 104 < text.length) :
    path + fsMaxPathLen ∈ (pathWritten ⟨mem, []⟩ path text).written := by
  rw [mem_pathWritten]
  simp only [fsMaxPathLen]
  omega

/-! ### Running a command -/

section Invoke

variable {mem : Memory} {dEntry pointer path arguments : Nat}

/-- What is in the buffer before the load: `0:/` and at most 107 characters. -/
theorem invokeSysCommandPath_eq (harguments : pagingGetPhysicalAddress mem dEntry pointer = arguments)
    (hprogram : ¬ (arguments = 0 ∨ mem arguments = 0))
    (hapart : path + fsMaxPathLen ≤ arguments ∨ arguments + fsMaxPathLen ≤ path) :
    invokeSysCommandPath mem dEntry pointer path =
      .ok (pathWritten ⟨mem, []⟩ path (stringAt mem arguments (fsMaxPathLen - 1))) := by
  have hstring : stringAt (strcpyLiteral ⟨mem, []⟩ path rootPath).mem arguments (fsMaxPathLen - 1) =
      stringAt mem arguments (fsMaxPathLen - 1) := by
    refine stringAt_congr fun b h1 h2 => ?_
    rw [strcpyLiteral_mem]
    refine sameOutside_store _ _ _ b fun hin => ?_
    simp only [Extent.holds_mk, List.length_append, List.length_cons, List.length_nil, fsMaxPathLen] at *
    omega
  unfold invokeSysCommandPath strncpyWrites pathWritten
  simp only [harguments]
  rw [if_neg hprogram, if_neg (by decide), strncpyWritesFrom_eq (by simp only [fsMaxPathLen] at *; omega), hstring]

/-- The call loads the program whose path is in the buffer. -/
theorem sysInvokeSysCommand_loads {A : Allocator H} {vol : Volume} {junk : Uninitialised} {s : Kernel H} {T : Task}
    (hT : s.taskList.tasks s.taskList.currentTask = some T)
    (harguments : pagingGetPhysicalAddress s.ram.mem (read32 s.ram.mem T.pageDirectory) pointer = arguments)
    (hapart : path + fsMaxPathLen ≤ arguments ∨ arguments + fsMaxPathLen ≤ path) :
    sysInvokeSysCommand A vol junk pointer s =
      (match invokeSysCommandPath s.ram.mem (read32 s.ram.mem T.pageDirectory) pointer path with
      | .error code => return code
      | .ok w => do
        let (res, process) ← processLoadSwitch A vol junk (w.string path)
        if res < 0 then return res
        let process := process.getD 0
        let res ← processInjectArguments A process arguments
        if res < 0 then return res
        let p ← loadProcess process
        let _ ← onTasks (taskSwitch p.task)
        return 0 : Program Stop (Kernel H) Int) s := by
  have htask : onTasks (loadTask s.taskList.currentTask) s = .ok (T, s) := by
    unfold onTasks zoom loadTask
    rw [hT]
  unfold sysInvokeSysCommand
  rw [bind_apply, get_apply]
  simp only
  rw [bind_apply, htask]
  simp only [harguments]
  by_cases hprogram : arguments = 0 ∨ s.ram.mem arguments = 0
  · unfold invokeSysCommandPath
    simp only [harguments]
    rw [if_pos hprogram, if_pos hprogram]
  · rw [if_neg hprogram, invokeSysCommandPath_eq harguments hprogram hapart]
    simp only
    have hlen : (stringAt s.ram.mem arguments (fsMaxPathLen - 1)).length ≤ 107 := length_stringAt_le _ _ _
    rw [pathWritten_string _ path (fun c hc => stringAt_ne_zero hc) hlen]

/-- A name is the one looked up just when it is short enough and its bytes are behind each other. -/
theorem invokeSysCommandPath_iff (hne : ∀ c ∈ name, c ≠ 0)
    (hapart : path + fsMaxPathLen ≤ pagingGetPhysicalAddress mem dEntry pointer ∨
      pagingGetPhysicalAddress mem dEntry pointer + fsMaxPathLen ≤ path) :
    PathBuilt path name (invokeSysCommandPath mem dEntry pointer path) ↔
      pagingGetPhysicalAddress mem dEntry pointer = 0 ∨ mem (pagingGetPhysicalAddress mem dEntry pointer) = 0 ∨
      name.length ≤ 104 ∧ Stored mem (pagingGetPhysicalAddress mem dEntry pointer) (name ++ [0]) := by
  generalize harguments : pagingGetPhysicalAddress mem dEntry pointer = arguments at *
  by_cases hprogram : arguments = 0 ∨ mem arguments = 0
  · have herror : invokeSysCommandPath mem dEntry pointer path = .error (-einvarg) := by
      unfold invokeSysCommandPath
      rw [harguments]
      exact if_pos hprogram
    rw [herror]
    exact iff_of_true (pathBuilt_error (by decide)) (or_assoc.mp (.inl hprogram))
  · have hlen := length_stringAt_le mem arguments (fsMaxPathLen - 1)
    rw [invokeSysCommandPath_eq harguments hprogram hapart,
      pathBuilt_pathWritten (fun c hc => stringAt_ne_zero hc) hlen, ← or_assoc, or_iff_right hprogram]
    refine and_congr_right fun hshort => ⟨fun htext => ?_, fun hstored => ?_⟩
    · have hstored : Stored mem arguments (stringAt mem arguments (fsMaxPathLen - 1) ++ [0]) :=
        stored_stringAt (by rw [htext]; exact Nat.lt_of_le_of_lt hshort (by decide))
      rwa [htext] at hstored
    · exact stringAt_of_stored hstored hne (Nat.le_trans hshort (by decide))

end Invoke

/-! ### Loading a program -/

section Load

variable {A : Allocator H} {C : Contract A} {D : DirectoryBlocks} {entry : Nat → Nat} {r r' : Ram H}
  {chunk filenamePtr filename path : Nat} {out : Except Int Writes}

/-- The buffers are two, on the kernel's stack. -/
structure KernelBuffers (filename path : Nat) : Prop where
  first : filename + fsMaxPathLen ≤ heapBaseAddress
  second : path + fsMaxPathLen ≤ heapBaseAddress
  apart : filename + fsMaxPathLen ≤ path ∨ path + fsMaxPathLen ≤ filename

/-- With the text that `copy_string_from_task` delivers, the path is `0:/` and all of it. -/
theorem processLoadStartPath_spec (hvalid : C.Valid r.heap) (hdir : DirectoryInUse C r D chunk)
    (htables : Tables D entry r.mem) (hptr : filenamePtr < 2 ^ 32) (hbuffers : KernelBuffers filename path) :
    Ensures (processLoadStartPath A chunk filenamePtr filename path) (fun out _ =>
      (nextBlock A fsMaxPathLen r.heap = 0 ∧ out = .error (-enomem)) ∨
      (nextBlock A fsMaxPathLen r.heap ≠ 0 ∧ Scratch C r D (nextBlock A fsMaxPathLen r.heap) ∧ ∃ mem text,
        FoundText D r.mem (nextBlock A fsMaxPathLen r.heap) fsMaxPathLen filenamePtr text ∧
        out = .ok (pathWritten ⟨mem, []⟩ path text))) r := by
  obtain ⟨hfilename, hpath, hapart⟩ := hbuffers
  have hbase : heapBaseAddress + fsMaxPathLen < 2 ^ 32 := by decide
  have hinUse : ∀ b, filename ≤ b → b < filename + fsMaxPathLen → C.InUse r b := fun b _ h2 =>
    .inl (Nat.lt_of_lt_of_le h2 hfilename)
  unfold processLoadStartPath
  refine wp.bind (copyStringFromTask_spec hvalid hdir htables hptr (by decide) (by decide)) fun res s hcopy => ?_
  obtain ⟨_, _, ⟨hnull, rfl, _⟩ | ⟨text, rfl, hscratch, hmem, hread⟩⟩ := hcopy
  · exact .inl ⟨hnull, rfl⟩
  have hstored : Stored s.mem filename (text ++ [0]) := by
    rw [hmem]
    exact hscratch.stored (by decide) (by decide) hinUse hread _
  have hlen : text.length ≤ 107 := hread.length
  -- the literal leaves the name as it is
  have hname : Stored (strcpyLiteral ⟨s.mem, []⟩ path rootPath).mem filename (text ++ [0]) := by
    intro i hi
    rw [strcpyLiteral_mem, sameOutside_store _ _ _ _ (fun hin => ?_)]
    · exact hstored i hi
    · simp only [Extent.holds_mk, List.length_append, List.length_cons, List.length_nil, fsMaxPathLen] at *
      omega
  have hcopied : strcpy (strcpyLiteral ⟨s.mem, []⟩ path rootPath) (u32 (path + 3)) filename =
      some (pathWritten ⟨s.mem, []⟩ path text) := by
    simp only [fsMaxPathLen] at hfilename hpath hapart hbase
    rw [u32_of_lt (by omega)]
    exact strcpyFrom_eq (by omega) hname hread.nonzero (by omega) (by omega) (by omega)
  rw [if_neg (by decide), wp_bind, wp_get]
  simp only [hcopied]
  rw [wp_bind, wp_modify]
  exact .inr ⟨hscratch.not_null, hscratch, s.mem, text, hread, rfl⟩

/-- A name is the one looked up just when it is short enough and delivered. -/
theorem processLoadStartPath_iff (hvalid : C.Valid r.heap) (hdir : DirectoryInUse C r D chunk)
    (htables : Tables D entry r.mem) (hptr : filenamePtr < 2 ^ 32) (hbuffers : KernelBuffers filename path)
    (hname : Stored (userView r.mem D.directory) filenamePtr (name ++ [0])) (hne : ∀ c ∈ name, c ≠ 0)
    (hrun : processLoadStartPath A chunk filenamePtr filename path r = .ok (out, r')) :
    PathBuilt path name out ↔ nextBlock A fsMaxPathLen r.heap = 0 ∨
      name.length ≤ 104 ∧ Undisturbed D r.mem (nextBlock A fsMaxPathLen r.heap) filenamePtr fsMaxPathLen := by
  obtain ⟨hnull, rfl⟩ | ⟨hblock, hscratch, mem, text, hread, rfl⟩ :=
    (processLoadStartPath_spec hvalid hdir htables hptr hbuffers).returned hrun
  · exact iff_of_true (pathBuilt_error (by decide)) (.inl hnull)
  rw [or_iff_right hblock, pathBuilt_pathWritten hread.nonzero hread.length]
  refine and_congr_right fun hshort => ?_
  have hstring : stringAt (userView r.mem D.directory) filenamePtr (fsMaxPathLen - 1) = name :=
    stringAt_of_stored hname hne (Nat.le_trans hshort (by decide))
  rw [← foundText_iff (hscratch.word_apart hdir (by decide)), hstring]
  exact ⟨fun htext => htext ▸ hread, hread.unique⟩

/-- **Names of at most 104 characters**: they are written into the buffer and looked up whole, no
longer one is, and none is refused. What the kernel reads has to be the name: undisturbed by the
copy of it, or at addresses behind each other. The calls that end before there is a path do as promised. -/
theorem programPath_iff (hvalid : C.Valid r.heap) (hdir : DirectoryInUse C r D chunk)
    (htables : Tables D entry r.mem) (hptr : filenamePtr < 2 ^ 32) (hbuffers : KernelBuffers filename path)
    (hname : Stored (userView r.mem D.directory) filenamePtr (name ++ [0])) (hne : ∀ c ∈ name, c ≠ 0)
    (hapart : path + fsMaxPathLen ≤ pagingGetPhysicalAddress r.mem D.directory filenamePtr ∨
      pagingGetPhysicalAddress r.mem D.directory filenamePtr + fsMaxPathLen ≤ path)
    (hrun : processLoadStartPath A chunk filenamePtr filename path r = .ok (out, r')) :
    (PathBuilt path name out ↔ nextBlock A fsMaxPathLen r.heap = 0 ∨
      name.length ≤ 104 ∧ Undisturbed D r.mem (nextBlock A fsMaxPathLen r.heap) filenamePtr fsMaxPathLen) ∧
    (PathBuilt path name (invokeSysCommandPath r.mem D.directory filenamePtr path) ↔
      pagingGetPhysicalAddress r.mem D.directory filenamePtr = 0 ∨
      r.mem (pagingGetPhysicalAddress r.mem D.directory filenamePtr) = 0 ∨
      name.length ≤ 104 ∧ Stored r.mem (pagingGetPhysicalAddress r.mem D.directory filenamePtr) (name ++ [0])) :=
  ⟨processLoadStartPath_iff hvalid hdir htables hptr hbuffers hname hne hrun, invokeSysCommandPath_iff hne hapart⟩

end Load

/-! ### A short name and a long one -/

/-- A name of that many letters at 0x900000, in a directory where addresses stand for themselves. -/
def nameRam (length : Nat) : Ram Ladder :=
  ⟨⟨0, []⟩, flatMemory openEntry (store (fun _ => 0) 0x900000 (List.replicate length 120))⟩

theorem nameRam_tables (length : Nat) : Tables lowDirectory openEntry (nameRam length).mem :=
  flatMemory_tables (fun _ => openEntry_lt) _

theorem nameRam_inUse (length : Nat) : DirectoryInUse ladderContract (nameRam length) lowDirectory 0x1FF000 :=
  flatMemory_inUse _ _ _ _

theorem nameRam_valid (length : Nat) : ladderContract.Valid (nameRam length).heap := ladder_sound

theorem nameRam_stored (length : Nat) : Stored (nameRam length).mem 0x900000 (List.replicate length 120 ++ [0]) := by
  intro i hi
  rw [List.length_append, List.length_singleton, List.length_replicate] at hi
  show (if _ then _ else _) = _
  rw [if_neg (by omega)]
  by_cases hletter : i < length
  · rw [store_at _ _ (by rwa [List.length_replicate]), List.getD_append _ _ _ _ (by rwa [List.length_replicate])]
  · obtain rfl : i = length := by omega
    rw [sameOutside_store _ _ _ _ (by rw [Extent.holds_mk, List.length_replicate]; omega),
      List.getD_append_right _ _ _ _ (by rw [List.length_replicate]), List.length_replicate, Nat.sub_self]
    rfl

/-- The task sees the same. -/
theorem nameRam_view {length : Nat} (hlen : length < 0x100000) :
    Stored (userView (nameRam length).mem lowDirectory.directory) 0x900000 (List.replicate length 120 ++ [0]) := by
  intro i hi
  have hbyte := nameRam_stored length i hi
  rw [List.length_append, List.length_singleton, List.length_replicate] at hi
  unfold userView
  rwa [Nat.mod_eq_of_lt (by omega), (openEntry_view (nameRam_tables length) (by omega)).2]

theorem nameRam_translated (length : Nat) :
    pagingGetPhysicalAddress (nameRam length).mem lowDirectory.directory 0x900000 = 0x900000 := by
  have hpage : pagingAlignToLowerPageAddr 0x900000 = 0x900 * pagingPageSize := by decide
  have hword : pagingGet (nameRam length).mem lowDirectory.directory (0x900 * pagingPageSize) = openEntry 0x900 :=
    (nameRam_tables length).get (by decide)
  unfold pagingGetPhysicalAddress
  simp only [hpage, hword]
  decide

/-- What the load of a name of that length is up to. -/
def nameOutcome (length : Nat) : Option (Option (List UInt8)) :=
  (Program.result (processLoadStartPath ladder 0x1FF000 0x900000 0x180000 0x180100) (nameRam length)).map
    fun out => out.toOption.map fun w => w.string 0x180100

set_option maxRecDepth 100000 in
theorem nameOutcome_one : nameOutcome 1 = some (some [0x30, 0x3A, 0x2F, 120]) := by decide +kernel

theorem kernelBuffers_example : KernelBuffers 0x180000 0x180100 := ⟨by decide, by decide, by decide⟩

set_option maxRecDepth 100000 in
/-- A name of one letter. -/
theorem programPath_letter : ∃ out r',
    processLoadStartPath ladder 0x1FF000 0x900000 0x180000 0x180100 (nameRam 1) = .ok (out, r') ∧
    PathBuilt 0x180100 [120] out ∧
    PathBuilt 0x180100 [120] (invokeSysCommandPath (nameRam 1).mem lowDirectory.directory 0x900000 0x180100) := by
  obtain ⟨out, hresult, _⟩ := Option.map_eq_some_iff.mp nameOutcome_one
  obtain ⟨r', hrun⟩ := result_eq_some hresult
  have hundisturbed : Undisturbed lowDirectory (nameRam 1).mem (nextBlock ladder fsMaxPathLen (nameRam 1).heap) 0x900000
      fsMaxPathLen := openEntry_undisturbed (nameRam_tables 1) (by decide) (by decide) (by decide)
  have htranslated := nameRam_translated 1
  have hview : Stored (userView (nameRam 1).mem lowDirectory.directory) 0x900000 ([120] ++ [0]) :=
    nameRam_view (by decide)
  obtain ⟨hload, hinvoke⟩ := programPath_iff (nameRam_valid 1) (nameRam_inUse 1)
    (nameRam_tables 1) (by decide) kernelBuffers_example hview (by simp) (by rw [htranslated]; decide) hrun
  refine ⟨out, r', hrun, hload.mpr (.inr ⟨by decide, hundisturbed⟩), hinvoke.mpr (.inr (.inr ⟨by decide, ?_⟩))⟩
  rw [htranslated]
  exact nameRam_stored 1

/-- **A name of 105 letters**: the character behind the buffer is written, and the load goes on. -/
theorem programPath_overrun : (∃ w,
      invokeSysCommandPath (nameRam 105).mem lowDirectory.directory 0x900000 0x180100 = .ok w ∧
        0x180100 + fsMaxPathLen ∈ w.written) ∧
    ¬ ∀ (r : Ram Ladder) (D : DirectoryBlocks) (entry : Nat → Nat) (pointer path : Nat) (name : List UInt8),
      Tables D entry r.mem → Stored (userView r.mem D.directory) pointer (name ++ [0]) → (∀ c ∈ name, c ≠ 0) →
      (path + fsMaxPathLen ≤ pagingGetPhysicalAddress r.mem D.directory pointer ∨
        pagingGetPhysicalAddress r.mem D.directory pointer + fsMaxPathLen ≤ path) →
      PathBuilt path name (invokeSysCommandPath r.mem D.directory pointer path) := by
  have htranslated := nameRam_translated 105
  have hstored := nameRam_stored 105
  have hne : ∀ c ∈ List.replicate 105 (120 : UInt8), c ≠ 0 := fun c hc => by
    rw [List.eq_of_mem_replicate hc]
    decide
  have hfirst : (nameRam 105).mem 0x900000 = 120 := hstored 0 (by decide)
  have hapart : 0x180100 + fsMaxPathLen ≤ 0x900000 ∨ 0x900000 + fsMaxPathLen ≤ 0x180100 := by decide
  constructor
  · have hprogram : ¬ (0x900000 = 0 ∨ (nameRam 105).mem 0x900000 = 0) := by
      rw [hfirst]
      decide
    refine ⟨_, invokeSysCommandPath_eq htranslated hprogram hapart, pathWritten_overruns _ ?_⟩
    rw [stringAt_of_stored hstored hne (by decide), List.length_replicate]
    decide
  · intro h
    have hbuilt := h (nameRam 105) lowDirectory openEntry 0x900000 0x180100 _ (nameRam_tables 105)
      (nameRam_view (by decide)) hne (by rw [htranslated]; exact hapart)
    have hcases := (invokeSysCommandPath_iff hne (by rw [htranslated]; exact hapart)).mp hbuilt
    rw [htranslated, hfirst, List.length_replicate] at hcases
    obtain hzero | hzero | ⟨hshort, _⟩ := hcases
    · exact absurd hzero (by decide)
    · exact absurd hzero (by decide)
    · exact absurd hshort (by decide)

end BasicOS

import BasicOS.Fs.Descriptors
import BasicOS.Fs.FileContents
import BasicOS.Process.Allocations

/-! The process table and the process that has the focus.

`TableIs` says what the slots, the focus and the ids of the processes in memory are. Every
function under `process_load` and `process_terminate` leaves these as they were, but for the
stores that are there to change them (`Keeps`), whatever the files, the heap and the
task list do meanwhile. From that one specification of each of the two operations follows,
and the invariant of every run (`focus_invariant`). -/
namespace BasicOS
open Lib Program

variable {H B : Type}

/-- The ids of the processes in memory. -/
def Kernel.ids (s : Kernel H) (process : Nat) : Option Nat := (s.process process).map Process.id

structure TableIs (processes : Nat → Nat) (current : Nat) (ids : Nat → Option Nat) (s : Kernel H) : Prop where
  processes : s.processes = processes
  current : s.currentProcess = current
  ids : s.ids = ids

/-- The program leaves table, focus and ids alone. -/
def Keeps (x : Program Stop (Kernel H) B) : Prop :=
  ∀ processes current ids, Preserves x (TableIs processes current ids)

/-! ### What keeps the table -/

theorem keeps_pure (b : B) : Keeps (pure b : Program Stop (Kernel H) B) := fun _ _ _ => preserves_pure b

theorem keeps_stop (e : Stop) : Keeps (stop e : Program Stop (Kernel H) B) := fun _ _ _ => preserves_stop e

theorem keeps_get : Keeps (get : Program Stop (Kernel H) (Kernel H)) := fun _ _ _ => preserves_get

theorem Keeps.bind {D : Type} {x : Program Stop (Kernel H) B} {f : B → Program Stop (Kernel H) D} (hx : Keeps x)
    (hf : ∀ b, Keeps (f b)) : Keeps (x >>= f) := fun p c i => (hx p c i).bind fun b => hf b p c i

theorem Keeps.ite {c : Prop} [Decidable c] {x y : Program Stop (Kernel H) B} (hx : Keeps x) (hy : Keeps y) :
    Keeps (if c then x else y) := fun p d i => (hx p d i).ite (hy p d i)

theorem Keeps.when {c : Prop} [Decidable c] {x : Program Stop (Kernel H) Unit} (hx : Keeps x) :
    Keeps (Program.when c x) := fun p d i => (hx p d i).when

theorem keeps_onFiles (x : Program Stop (Files H) B) : Keeps (onFiles x : Program Stop (Kernel H) B) := by
  intro processes current ids s h
  unfold onFiles
  rw [wp_zoom]
  unfold wp
  split
  · exact ⟨h.processes, h.current, h.ids⟩
  · trivial

theorem keeps_onRam (x : Program Stop (Ram H) B) : Keeps (onRam x : Program Stop (Kernel H) B) := by
  intro processes current ids s h
  unfold onRam
  rw [wp_zoom]
  unfold wp
  split
  · exact ⟨h.processes, h.current, h.ids⟩
  · trivial

theorem keeps_onTasks (x : Program Stop TaskList B) : Keeps (onTasks x : Program Stop (Kernel H) B) := by
  intro processes current ids s h
  unfold onTasks
  rw [wp_zoom]
  unfold wp
  split
  · exact ⟨h.processes, h.current, h.ids⟩
  · trivial

theorem loadProcess_spec (process : Nat) (s : Kernel H) :
    Ensures (loadProcess process) (fun P t => t = s ∧ s.process process = some P) s := by
  cases h : s.process process with
  | none => exact (wp_error (by unfold loadProcess; rw [h])).mpr trivial
  | some P => exact (wp_loadProcess h).mpr ⟨rfl, rfl⟩

theorem keeps_loadProcess (process : Nat) : Keeps (loadProcess process : Program Stop (Kernel H) Process) := by
  intro processes current ids s h
  refine (loadProcess_spec process s).mono ?_
  rintro P t ⟨rfl, _⟩
  exact h

theorem keeps_loadElfFile (f : Nat) : Keeps (loadElfFile f : Program Stop (Kernel H) ElfFile) := by
  intro processes current ids s h
  cases hf : s.elfFile f with
  | none => exact (wp_error (by unfold loadElfFile; rw [hf])).mpr trivial
  | some F => exact (wp_loadElfFile hf).mpr h

theorem keeps_storeElfFile (f : Nat) (F : ElfFile) : Keeps (storeElfFile f F : Program Stop (Kernel H) Unit) := by
  intro processes current ids s h
  cases hf : s.elfFile f with
  | none => exact (wp_error (by unfold storeElfFile; rw [hf])).mpr trivial
  | some _ => exact (wp_storeElfFile hf).mpr ⟨h.processes, h.current, h.ids⟩

theorem keeps_putElfFile (f : Nat) (F : Option ElfFile) :
    Keeps (modify fun s => s.putElfFile f F : Program Stop (Kernel H) Unit) :=
  fun _ _ _ => preserves_modify fun _ h => ⟨h.processes, h.current, h.ids⟩

theorem Kernel.ids_putProcess (s : Kernel H) (process : Nat) (P : Option Process) :
    (s.putProcess process P).ids = Function.update s.ids process (P.map Process.id) := by
  funext q
  unfold Kernel.ids Kernel.putProcess
  by_cases hq : q = process
  · subst hq
    simp only [Function.update_self]
  · simp only [Function.update_of_ne hq]

theorem TableIs.putProcess {processes : Nat → Nat} {current : Nat} {ids : Nat → Option Nat} {s : Kernel H}
    (h : TableIs processes current ids s) (process : Nat) (P : Option Process) :
    TableIs processes current (Function.update ids process (P.map Process.id)) (s.putProcess process P) :=
  ⟨h.processes, h.current, by rw [Kernel.ids_putProcess, h.ids]⟩

theorem TableIs.storeProcess {processes : Nat → Nat} {current : Nat} {ids : Nat → Option Nat} {s : Kernel H}
    (h : TableIs processes current ids s) (process : Nat) (P : Process) :
    Ensures (storeProcess process P) (fun _ t =>
      TableIs processes current (Function.update ids process (some P.id)) t) s := by
  cases hP : s.process process with
  | none => exact (wp_error (by unfold BasicOS.storeProcess; rw [hP])).mpr trivial
  | some _ => exact (wp_storeProcess hP).mpr (h.putProcess process (some P))

/-- Changing fields of a process other than its id. -/
theorem keeps_change {D : Type} (process : Nat) (f : Process → Process) (hf : ∀ P, (f P).id = P.id)
    {x : Program Stop (Kernel H) D} (hx : Keeps x) : Keeps (do
      let p ← loadProcess process
      storeProcess process (f p)
      x) := by
  intro processes current ids s h
  refine (loadProcess_spec process s).bind ?_
  rintro P t ⟨rfl, hP⟩
  refine (h.storeProcess process (f P)).bind fun _ t ht => hx processes current ids t ?_
  rw [hf P] at ht
  have hid : ids process = some P.id := by
    rw [← h.ids]
    unfold Kernel.ids
    rw [hP]
    rfl
  rwa [← hid, Function.update_eq_self] at ht

/-! ### Loading -/

variable (A : Allocator H) (vol : Volume)

theorem keeps_elfReadFile (elfFile : Nat) (fd : Int) : Keeps (elfReadFile A vol elfFile fd) := by
  unfold elfReadFile
  refine (keeps_onFiles _).bind fun stat => .ite (keeps_pure _) ?_
  refine (keeps_onRam _).bind fun elfMemory => (keeps_loadElfFile _).bind fun f =>
    (keeps_storeElfFile _ _).bind fun _ => ?_
  refine .ite (keeps_pure _) ((keeps_onFiles _).bind fun res => .ite (keeps_pure _) ?_)
  exact (keeps_loadElfFile _).bind fun f => keeps_get.bind fun s => (keeps_storeElfFile _ _).bind fun _ => keeps_pure _

theorem keeps_elfLoad (fd : Int) (filename : List UInt8) : Keeps (elfLoad A vol fd filename) := by
  unfold elfLoad
  refine (keeps_onRam _).bind fun elfFile => .ite ((keeps_onFiles _).bind fun _ => keeps_pure _) ?_
  refine (keeps_putElfFile _ _).bind fun _ => (keeps_onFiles _).bind fun res => ?_
  refine .ite ((keeps_onFiles _).bind fun _ => keeps_pure _) ?_
  exact (keeps_elfReadFile A vol _ _).bind fun res => (keeps_onFiles _).bind fun _ => keeps_pure _

theorem keeps_readBinary (process : Nat) (fd : Int) : Keeps (readBinary A vol process fd) := by
  unfold readBinary
  refine (keeps_onFiles _).bind fun stat => .ite (keeps_pure _) ?_
  refine (keeps_onRam _).bind fun ptr => .ite (keeps_pure _) ?_
  refine (keeps_onFiles _).bind fun res => .ite (keeps_pure _) ?_
  exact keeps_change process (fun p => {p with filetype := processFormatFbin, ptr := ptr, size := stat.2})
    (fun _ => rfl) (keeps_pure _)

theorem keeps_processLoadBinary (filename : List UInt8) (process : Nat) :
    Keeps (processLoadBinary A vol filename process) := by
  unfold processLoadBinary
  refine (keeps_onFiles _).bind fun fd => .ite ((keeps_onFiles _).bind fun _ => keeps_pure _) ?_
  exact (keeps_readBinary A vol process _).bind fun res => (keeps_onFiles _).bind fun _ => keeps_pure _

theorem keeps_processLoadData (fd : Int) (filename : List UInt8) (process : Nat) :
    Keeps (processLoadData A vol fd filename process) := by
  unfold processLoadData
  refine Keeps.bind ?_ fun res => .ite (keeps_processLoadBinary A vol filename process) (keeps_pure _)
  unfold processLoadElf
  refine (keeps_elfLoad A vol fd filename).bind fun loaded => .ite (keeps_pure _) ?_
  exact keeps_change process (fun p => {p with filetype := processFormatElf, ptr := loaded.2}) (fun _ => rfl)
    (keeps_pure _)

theorem keeps_mapInTask (task vAddr pAddr pAddrEnd : Nat) (flags : Int) :
    Keeps (mapInTask task vAddr pAddr pAddrEnd flags : Program Stop (Kernel H) Int) :=
  (keeps_onTasks _).bind fun _ => keeps_onRam _

theorem keeps_programEntry (process : Nat) : Keeps (programEntry process : Program Stop (Kernel H) Nat) := by
  unfold programEntry
  refine (keeps_loadProcess process).bind fun p => .ite ?_ (keeps_pure _)
  exact (keeps_loadElfFile _).bind fun f => keeps_get.bind fun s => keeps_pure _

theorem pagingMapTo_nonpos (mem : Memory) (chunk vAddr pAddr pAddrEnd : Nat) (flags : Int) :
    (pagingMapTo mem chunk vAddr pAddr pAddrEnd flags).1 ≤ 0 := by
  have hset : ∀ (m : Memory) (d a v : Nat), (pagingSet m d a v).1 ≤ 0 := by
    intro m d a v
    unfold pagingSet pagingGetIndexes
    cases pagingIsAligned a <;> simp [einvarg]
  have hmap : ∀ (m : Memory) (v a : Nat), (pagingMap m chunk v a flags).1 ≤ 0 := by
    intro m v a
    unfold pagingMap
    split
    · simp [einvarg]
    · exact hset ..
  have hrange : ∀ (count : Nat) (m : Memory) (v a : Nat) (res : Int), res ≤ 0 →
      (pagingMapRangeFrom chunk flags count m v a res).1 ≤ 0 := by
    intro count
    induction count with
    | zero =>
      intro m v a res h
      exact h
    | succ count ih =>
      intro m v a res _
      unfold pagingMapRangeFrom
      have h := hmap m v a
      simp only
      split
      · exact h
      · exact ih _ _ _ _ h
  unfold pagingMapTo
  split
  · simp [einvarg]
  · exact hrange _ _ _ _ _ (Int.le_refl 0)

theorem mapElf_nonpos (chunk elfMemory : Nat) (mem : Memory) : (mapElf chunk elfMemory mem).1 ≤ 0 := by
  have h : ∀ (phdrs n i : Nat) (m : Memory) (res : Int), res ≤ 0 →
      (mapElfFrom chunk elfMemory phdrs n i m res).1 ≤ 0 := by
    intro phdrs n
    induction n with
    | zero =>
      intro i m res h
      exact h
    | succ n ih =>
      intro i m res h
      unfold mapElfFrom
      simp only
      generalize (if (phdrIn m phdrs i).pFlags &&& pfW ≠ 0 then flagsWritable else flagsReadOnly) = flags
      split
      · split
        · exact pagingMapTo_nonpos ..
        · exact ih _ _ _ (pagingMapTo_nonpos ..)
      · exact h
  exact h _ _ _ _ _ (Int.le_refl 0)

theorem keeps_processMapElf (process : Nat) : Keeps (processMapElf process : Program Stop (Kernel H) Int) := by
  unfold processMapElf
  exact (keeps_loadProcess _).bind fun _ => (keeps_loadElfFile _).bind fun _ => (keeps_onTasks _).bind fun _ =>
    keeps_onRam _

theorem processMapElf_nonpos (process : Nat) (s : Kernel H) :
    Ensures (processMapElf process) (fun res _ => res ≤ 0) s := by
  unfold processMapElf
  refine Ensures.after (fun p s => Ensures.after (fun f s => Ensures.after (fun t s => ?_) s) s) s
  unfold onRam
  rw [Ensures, wp_zoom]
  exact mapElf_nonpos ..

theorem keeps_processMapBinary (process : Nat) :
    Keeps (processMapBinary process : Program Stop (Kernel H) Int) := by
  unfold processMapBinary
  exact (keeps_loadProcess _).bind fun p => (keeps_mapInTask p.task _ _ _ _).bind fun _ => keeps_pure _

theorem processMapBinary_nonpos (process : Nat) (s : Kernel H) :
    Ensures (processMapBinary process) (fun res _ => res ≤ 0) s := by
  unfold processMapBinary
  refine Ensures.after (fun p s => Ensures.after (fun res s => ?_) s) s
  exact Int.le_refl 0

theorem keeps_processMapMemory (process : Nat) : Keeps (processMapMemory process : Program Stop (Kernel H) Int) := by
  have hstack : ∀ res : Int, Keeps (if res < 0 then (pure res : Program Stop (Kernel H) Int) else do
      let p ← loadProcess process
      let _ ← mapInTask p.task bkeTaskProgramVirtualStackAddrEnd p.stack
        (pagingAlignAddress (u32 (p.stack + bkeTaskUserStackSize))) flagsWritable
      pure res) := by
    intro res
    refine .ite (keeps_pure _) ((keeps_loadProcess _).bind fun p => ?_)
    exact (keeps_mapInTask p.task _ _ _ _).bind fun _ => keeps_pure _
  unfold processMapMemory
  refine (keeps_loadProcess process).bind fun p => .ite ((keeps_processMapElf process).bind hstack) ?_
  exact .ite ((keeps_processMapBinary process).bind hstack) (keeps_pure _)

theorem processMapMemory_nonpos (process : Nat) (s : Kernel H) :
    Ensures (processMapMemory process) (fun res _ => res ≤ 0) s := by
  have hstack : ∀ (res : Int) (s : Kernel H), res ≤ 0 →
      Ensures (if res < 0 then (pure res : Program Stop (Kernel H) Int) else do
        let p ← loadProcess process
        let _ ← mapInTask p.task bkeTaskProgramVirtualStackAddrEnd p.stack
          (pagingAlignAddress (u32 (p.stack + bkeTaskUserStackSize))) flagsWritable
        pure res) (fun res _ => res ≤ 0) s := by
    intro res s h
    split
    · exact h
    · refine Ensures.after (fun p s => Ensures.after (fun _ s => ?_) s) s
      exact h
  unfold processMapMemory
  refine Ensures.after (fun p s => ?_) s
  dsimp only
  split
  · exact wp.bind (processMapElf_nonpos process s) fun res t => hstack res t
  · split
    · exact wp.bind (processMapBinary_nonpos process s) fun res t => hstack res t
    · show (-einvformat : Int) ≤ 0
      decide

theorem keeps_newTask (process : Nat) : Keeps (newTask A process) := by
  unfold newTask
  refine (keeps_onRam _).bind fun task => (keeps_stop _).when.bind fun _ => (keeps_onRam _).bind fun directory => ?_
  exact (keeps_programEntry process).bind fun eip => keeps_onTasks _

/-- `task_init` fails only for want of a directory. -/
theorem taskInit_result (task pageDirectory eip process : Nat) (s : TaskList) :
    Ensures (taskInit task pageDirectory eip process) (fun res _ => res = 0 ∨ res = -eio) s := by
  unfold taskInit
  refine Ensures.after (fun _ s => Ensures.after (fun t s => Ensures.after (fun _ s => ?_) s) s) s
  split
  · exact .inr rfl
  · refine Ensures.after (fun t s => Ensures.after (fun _ s => ?_) s) s
    exact .inl rfl

/-- `task_new` never answers null. -/
theorem newTask_ne_null (process : Nat) (s : Kernel H) : Ensures (newTask A process) (fun task _ => task ≠ 0) s := by
  unfold newTask
  refine Ensures.after (fun task s => ?_) s
  rw [Ensures, wp_bind, wp_when]
  refine ⟨fun _ => trivial, fun htask => ?_⟩
  refine Ensures.after (fun directory s => Ensures.after (fun eip s => ?_) s) s
  unfold onTasks taskNew
  rw [Ensures, wp_zoom, if_neg htask]
  refine Ensures.after (fun _ l => ?_) _
  refine wp.bind (taskInit_result task directory eip process l) fun res l' hres => ?_
  split
  · rename_i hne
    rcases hres with rfl | rfl
    · exact absurd rfl hne
    · refine Ensures.after (fun _ l => ?_) _
      show u32OfInt (-eio) ≠ 0
      decide
  · refine Ensures.after (fun _ l => ?_) _
    exact htask

section Table

variable {s : Kernel H} {processes : Nat → Nat} {current : Nat} {ids : Nat → Option Nat} {process : Nat}

theorem TableIs.loadProcess (h : TableIs processes current ids s) (process : Nat) :
    Ensures (BasicOS.loadProcess process) (fun P t => ids process = some P.id ∧ TableIs processes current ids t) s := by
  refine (loadProcess_spec process s).mono ?_
  rintro P t ⟨rfl, hP⟩
  refine ⟨?_, h⟩
  rw [← h.ids]
  unfold Kernel.ids
  rw [hP]
  rfl

/-- A process is made with its slot as its id, or the load fails. -/
theorem loadInto_spec (fd : Int) (filename : List UInt8) (processSlot : Int) {id : Option Nat}
    (h : TableIs processes current (Function.update ids process id) s) :
    Ensures (loadInto A vol fd filename processSlot process) (fun out t =>
      (out.1 < 0 ∧ ∃ id, TableIs processes current (Function.update ids process id) t) ∨
      (out = (0, true) ∧ TableIs processes current (Function.update ids process
        (some (u32OfInt processSlot))) t)) s := by
  unfold loadInto
  refine wp.bind (keeps_processLoadData A vol fd filename process _ _ _ s h) fun res t h => ?_
  split
  · exact .inl ⟨‹_›, id, h⟩
  refine wp.bind (keeps_onRam _ _ _ _ t h) fun stack t h => ?_
  split
  · exact .inl ⟨by simp [enomem], id, h⟩
  refine wp.bind (h.loadProcess process) fun P t ⟨_, h⟩ => ?_
  refine wp.bind (h.storeProcess process _) fun _ t h => ?_
  rw [Function.update_idem] at h
  refine wp.bind ((newTask_ne_null A process t).and (keeps_newTask A process _ _ _ t h)) fun task t ⟨htask, h⟩ => ?_
  rw [if_neg htask]
  refine wp.bind (h.loadProcess process) fun P t ⟨hid, h⟩ => ?_
  rw [Function.update_self, Option.some_inj] at hid
  refine wp.bind (h.storeProcess process _) fun _ t h => ?_
  rw [Function.update_idem] at h
  refine wp.bind ((processMapMemory_nonpos process t).and (keeps_processMapMemory process _ _ _ t h))
    fun res t ⟨hres, h⟩ => ?_
  by_cases hneg : res < 0
  · exact .inl ⟨hneg, _, h⟩
  · obtain rfl : res = 0 := by omega
    rw [← hid] at h
    exact .inr ⟨rfl, h⟩

attribute [local irreducible] pagingFree4gb

theorem keeps_freeTask (task : Nat) : Keeps (freeTask A task) := by
  unfold freeTask
  exact (keeps_onTasks _).bind fun t => (keeps_onRam _).bind fun _ => (keeps_onTasks _).bind fun _ => keeps_onRam _

theorem loadCleanup_spec {id : Option Nat} (hprocess : process ≠ 0)
    (h : TableIs processes current (Function.update ids process id) s) :
    Ensures (loadCleanup A process) (fun _ t => TableIs processes current (Function.update ids process none) t) s := by
  unfold loadCleanup
  rw [when_true hprocess]
  refine wp.bind (h.loadProcess process) fun P t ⟨_, h⟩ => ?_
  refine wp.bind ((keeps_freeTask A P.task).when _ _ _ t h) fun _ t h => ?_
  refine wp.bind ((keeps_onRam _).when _ _ _ t h) fun _ t h => ?_
  refine wp.bind (((keeps_onRam _).bind fun _ => keeps_putElfFile P.ptr none).when _ _ _ t h) fun _ t h => ?_
  refine wp.bind (keeps_onRam _ _ _ _ t h) fun _ t h => ?_
  rw [wp_modify]
  have h := h.putProcess process none
  rwa [Function.update_idem] at h

/-- The slot of a load that is not turned away is free. -/
theorem getFreeProcessSlot_spec (s : Kernel H) : s.getFreeProcessSlot = -eprocNomem ∨
    ∃ i : Nat, s.getFreeProcessSlot = i ∧ i < basicOSMaxProcesses ∧ s.processes i = 0 := by
  unfold Kernel.getFreeProcessSlot
  split
  · rename_i i hi
    exact .inr ⟨i, rfl, List.mem_range.mp (List.mem_of_find?_eq_some hi), by simpa using List.find?_some hi⟩
  · exact .inl rfl

/-- What `kzalloc` answers with for a process is no process that is still there. -/
def FreshProcess (A : Allocator H) (s : Kernel H) : Prop :=
  ∀ ptr ram, kzalloc A sizeofProcess s.ram = .ok (ptr, ram) → ptr ≠ 0 → s.process ptr = none

theorem onRam_spec (x : Program Stop (Ram H) B) (s : Kernel H) :
    Ensures (onRam x) (fun b t => ∃ ram, x s.ram = .ok (b, ram) ∧ t = s.withRam ram) s := by
  unfold onRam
  rw [Ensures, wp_zoom]
  unfold wp
  split
  · exact ⟨_, ‹_›, rfl⟩
  · trivial

theorem processLoadForSlot_spec (junk : Uninitialised) (filename : List UInt8) {i : Nat} (hfresh : FreshProcess A s)
    (h : TableIs processes current ids s) (hi : i < basicOSMaxProcesses) (hfree : processes i = 0) :
    Ensures (processLoadForSlot A vol junk filename i) (fun out t =>
      (out.1 < 0 ∧ TableIs processes current ids t) ∨
      ∃ process, out = (0, some process) ∧ process ≠ 0 ∧ ids process = none ∧
        TableIs (Function.update processes i process) current (Function.update ids process (some i)) t) s := by
  have hget : s.getProcess i = 0 := by
    unfold Kernel.getProcess
    rw [if_neg (by omega), h.processes]
    exact hfree
  unfold processLoadForSlot
  rw [Ensures, wp_bind, wp_get, hget, if_neg (by decide)]
  refine wp.bind (onRam_spec _ s) fun process t hram => ?_
  obtain ⟨ram, hkz, ht⟩ := hram
  split
  · subst ht
    exact .inl ⟨by simp [enomem], h.processes, h.current, h.ids⟩
  rename_i hne
  have hnone : ids process = none := by
    rw [← h.ids]
    unfold Kernel.ids
    rw [hfresh process ram hkz hne]
    rfl
  have hstart : TableIs processes current (Function.update ids process (some 0))
    (t.putProcess process (some zeroProcess)) := by
    subst ht
    exact TableIs.putProcess (s := s.withRam ram) ⟨h.processes, h.current, h.ids⟩ process (some zeroProcess)
  rw [wp_bind, wp_modify]
  refine wp.bind (loadInto_spec A vol junk.fd filename i hstart) fun out t hout => ?_
  obtain ⟨res, made⟩ := out
  rcases hout with ⟨hneg, id, h⟩ | ⟨hout, h⟩
  · simp only at hneg
    simp only [if_pos hneg]
    refine wp.bind (loadCleanup_spec A hne h) fun _ t h => .inl ⟨hneg, ?_⟩
    rwa [← hnone, Function.update_eq_self] at h
  · obtain ⟨rfl, rfl⟩ := Prod.mk.inj hout
    simp only [Int.lt_irrefl, if_false, Bool.not_true, Bool.false_eq_true]
    unfold setProcess
    rw [wp_bind, wp_bind, when_false (by omega)]
    refine .inr ⟨process, rfl, hne, hnone, ?_, h.current, ?_⟩
    · show Function.update t.processes (i : Int).toNat process = _
      rw [h.processes, Int.toNat_natCast]
    · have hid : u32OfInt i = i := by
        rw [u32OfInt_natCast]
        exact u32_of_lt (Nat.lt_trans hi (by decide))
      rw [← hid]
      exact h.ids

/-- **A load** leaves table and focus as they were, or puts a new process in a free slot and
gives it the focus. -/
theorem processLoadSwitch_spec (junk : Uninitialised) (filename : List UInt8) (hfresh : FreshProcess A s)
    (h : TableIs processes current ids s) :
    Ensures (processLoadSwitch A vol junk filename) (fun out t =>
      (out.1 < 0 ∧ TableIs processes current ids t) ∨
      ∃ i process, out.1 = 0 ∧ i < basicOSMaxProcesses ∧ processes i = 0 ∧ process ≠ 0 ∧ ids process = none ∧
        TableIs (Function.update processes i process) process (Function.update ids process (some i)) t) s := by
  unfold processLoadSwitch processLoad
  rw [Ensures, wp_bind, wp_bind, wp_get]
  rcases getFreeProcessSlot_spec s with hnone | ⟨i, hslot, hi, hfree⟩
  · rw [hnone, if_pos (by decide)]
    exact .inl ⟨by decide, h⟩
  rw [hslot, if_neg (by omega)]
  rw [h.processes] at hfree
  refine (processLoadForSlot_spec A vol junk filename hfresh h hi hfree).mono fun out t hout => ?_
  rcases hout with ⟨hneg, h⟩ | ⟨process, rfl, hne, hnone, h⟩
  · simp only
    rw [wp_bind, when_false (by omega)]
    exact .inl ⟨hneg, h⟩
  · exact .inr ⟨i, process, rfl, hi, hfree, hne, hnone, h.processes, rfl, h.ids⟩

/-! ### Terminating -/

theorem keeps_processFree (process ptr : Nat) : Keeps (processFree A process ptr) := by
  unfold processFree
  refine (keeps_loadProcess process).bind fun P => ?_
  cases P.slotOf ptr with
  | none => exact keeps_pure _
  | some i =>
    refine (keeps_mapInTask P.task _ _ _ _).bind fun res => Keeps.when ?_
    exact keeps_change process (fun P => P.putAllocation i ⟨0, 0⟩) (fun _ => rfl) (keeps_onRam _)

theorem keeps_terminalAllocations (process n : Nat) : Keeps (terminalAllocations A process n) := by
  induction n with
  | zero => exact keeps_pure _
  | succ n ih =>
    unfold terminalAllocations
    exact ih.bind fun _ => (keeps_loadProcess process).bind fun P => (keeps_processFree A process _).when

attribute [local irreducible] terminalAllocations

theorem keeps_processUnloadProcess (process : Nat) : Keeps (processUnloadProcess A process) := by
  unfold processUnloadProcess
  refine (keeps_loadProcess process).bind fun P => .ite ((keeps_onRam _).bind fun _ => keeps_pure _) ?_
  refine .ite (Keeps.bind ?_ fun _ => keeps_pure _) (keeps_pure _)
  unfold elfClose
  refine Keeps.when ((keeps_loadElfFile _).bind fun f => (keeps_onRam _).bind fun _ => ?_)
  exact (keeps_onRam _).bind fun _ => keeps_putElfFile _ _

/-- The focus after a process has left: its own if it has it, else the first process there is. -/
def FocusAfter (processes : Nat → Nat) (process current current' : Nat) : Prop :=
  if current = process then current' ≠ 0 ∧ ∃ i, i < basicOSMaxProcesses ∧ processes i = current' else current' = current

theorem processUnlink_spec {i : Nat} (h : TableIs processes current ids s) (hid : ids process = some i)
    (hi : i < basicOSMaxProcesses) :
    Ensures (processUnlink process) (fun _ t => ∃ current',
      FocusAfter (Function.update processes i 0) process current current' ∧
        TableIs (Function.update processes i 0) current' ids t) s := by
  unfold processUnlink
  refine wp.bind (h.loadProcess process) fun P t ⟨hP, h⟩ => ?_
  rw [hid, Option.some_inj] at hP
  subst hP
  unfold setProcess
  rw [wp_bind, wp_bind, when_false (by omega), wp_pure, wp_modify, wp_bind, wp_get]
  have h₁ : TableIs (Function.update processes P.id 0) current ids
      {t with processes := Function.update t.processes (P.id : Int).toNat 0} := by
    refine ⟨?_, h.current, h.ids⟩
    show Function.update t.processes (P.id : Int).toNat 0 = _
    rw [h.processes, Int.toNat_natCast]
  generalize {t with processes := Function.update t.processes (P.id : Int).toNat 0} = u at h₁
  by_cases hcurrent : current = process
  · rw [when_true (h₁.current.trans hcurrent)]
    unfold processSwitchAvailable
    rw [wp_bind, wp_get]
    split
    · rename_i j hj
      refine ⟨u.processes j, ?_, h₁.processes, rfl, h₁.ids⟩
      unfold FocusAfter
      rw [if_pos hcurrent]
      exact ⟨by simpa using List.find?_some hj, j, List.mem_range.mp (List.mem_of_find?_eq_some hj),
        congrFun h₁.processes.symm j⟩
    · trivial
  · rw [when_false (fun heq => hcurrent (h₁.current.symm.trans heq))]
    refine ⟨current, ?_, h₁⟩
    unfold FocusAfter
    rw [if_neg hcurrent]

/-- **A termination** frees the slot of the process and, if it had the focus, gives it to
another one of the table. -/
theorem processTerminate_spec {i : Nat} (h : TableIs processes current ids s) (hid : ids process = some i)
    (hi : i < basicOSMaxProcesses) :
    Ensures (processTerminate A process) (fun _ t => ∃ current',
      FocusAfter (Function.update processes i 0) process current current' ∧
        TableIs (Function.update processes i 0) current' ids t) s := by
  unfold processTerminate processTerminalAllocations
  rw [Ensures, wp_bind, wp_bind]
  refine wp.mono (keeps_terminalAllocations A process _ _ _ _ s h) (fun _ t h => ?_) fun _ _ => trivial
  rw [wp_pure, if_neg (by decide)]
  refine wp.bind (keeps_processUnloadProcess A process _ _ _ t h) fun res t h => ?_
  refine wp.bind (keeps_loadProcess process _ _ _ t h) fun P t h => ?_
  refine wp.bind (keeps_onRam _ _ _ _ t h) fun _ t h => ?_
  refine wp.bind (keeps_freeTask A P.task _ _ _ t h) fun _ t h => ?_
  exact wp.bind (processUnlink_spec h hid hi) fun _ t h => h

end Table

attribute [local irreducible] processTerminate processLoadSwitch

/-! ### Runs -/

/-- The kernel, whether a load has succeeded, and the processes terminated so far. -/
structure FocusState (H : Type) where
  kernel : Kernel H
  loaded : Bool
  terminated : List Nat

inductive FocusOp where
  | load (vol : Volume) (junk : Uninitialised) (filename : List UInt8)
  | terminate (process : Nat)
  /-- A timer tick: the task list is another one afterwards. -/
  | tick (tasks : TaskList)

/-- One operation that returns. Only live processes are terminated. -/
inductive FocusStep (A : Allocator H) (s : FocusState H) : FocusOp → FocusState H → Prop where
  | load {vol junk filename out kernel} (h : processLoadSwitch A vol junk filename s.kernel = .ok (out, kernel)) :
      FocusStep A s (.load vol junk filename) ⟨kernel, s.loaded || decide (0 ≤ out.1), s.terminated⟩
  | terminate {i res kernel} (hi : i < basicOSMaxProcesses) (hlive : s.kernel.processes i ≠ 0)
      (h : processTerminate A (s.kernel.processes i) s.kernel = .ok (res, kernel)) :
      FocusStep A s (.terminate (s.kernel.processes i)) ⟨kernel, s.loaded, s.kernel.processes i :: s.terminated⟩
  | tick {tasks} : FocusStep A s (.tick tasks) {s with kernel := {s.kernel with taskList := tasks}}

/-- The allocator answers a load with a fresh block. -/
def FreshBlocks (A : Allocator H) (s : FocusState H) : FocusOp → Prop
  | .load _ _ _ => FreshProcess A s.kernel
  | _ => True

/-- No process yet. -/
structure NoProcess (s : FocusState H) : Prop where
  processes : ∀ i, i < basicOSMaxProcesses → s.kernel.processes i = 0
  current : s.kernel.currentProcess = 0
  loaded : s.loaded = false
  terminated : s.terminated = []

structure FocusInvariant (s : FocusState H) : Prop where
  ids : ∀ i, i < basicOSMaxProcesses → s.kernel.processes i ≠ 0 → s.kernel.ids (s.kernel.processes i) = some i
  unloaded : s.loaded = false → s.kernel.currentProcess = 0
  focused : s.loaded = true → s.kernel.currentProcess ≠ 0 ∧
    ∃ i, i < basicOSMaxProcesses ∧ s.kernel.processes i = s.kernel.currentProcess
  gone : ∀ process ∈ s.terminated, process ≠ 0 ∧ s.kernel.ids process ≠ none ∧
    ∀ i, i < basicOSMaxProcesses → s.kernel.processes i ≠ process

theorem NoProcess.invariant {s : FocusState H} (h : NoProcess s) : FocusInvariant s := by
  refine ⟨fun i hi hne => absurd (h.processes i hi) hne, fun _ => h.current, fun hloaded => ?_, fun process hp => ?_⟩
  · rw [h.loaded] at hloaded
    cases hloaded
  · rw [h.terminated] at hp
    cases hp

/-- The invariant speaks of the table, the focus and the ids only. -/
theorem FocusInvariant.congr {s t : FocusState H} (h : FocusInvariant s)
    (htable : TableIs s.kernel.processes s.kernel.currentProcess s.kernel.ids t.kernel) (hloaded : t.loaded = s.loaded)
    (hterminated : t.terminated = s.terminated) : FocusInvariant t := by
  obtain ⟨hprocesses, hcurrent, hids⟩ := htable
  refine ⟨?_, ?_, ?_, ?_⟩
  · rw [hprocesses, hids]
    exact h.ids
  · rw [hcurrent, hloaded]
    exact h.unloaded
  · rw [hcurrent, hloaded, hprocesses]
    exact h.focused
  · rw [hterminated, hids, hprocesses]
    exact h.gone

theorem FocusInvariant.load {s t : FocusState H} (h : FocusInvariant s) {i process : Nat} (hi : i < basicOSMaxProcesses)
    (hne : process ≠ 0) (hnone : s.kernel.ids process = none)
    (htable : TableIs (Function.update s.kernel.processes i process) process
      (Function.update s.kernel.ids process (some i)) t.kernel)
    (hloaded : t.loaded = true) (hterminated : t.terminated = s.terminated) : FocusInvariant t := by
  obtain ⟨hprocesses, hcurrent, hids⟩ := htable
  refine ⟨fun j hj hlive => ?_, fun hunloaded => ?_, fun _ => ?_, fun q hq => ?_⟩
  · rw [hprocesses] at hlive ⊢
    rw [hids]
    by_cases hji : j = i
    · subst hji
      rw [Function.update_self, Function.update_self]
    · rw [Function.update_of_ne hji] at hlive ⊢
      have hother := h.ids j hj hlive
      rw [Function.update_of_ne (fun heq => by rw [heq, hnone] at hother; cases hother)]
      exact hother
  · rw [hloaded] at hunloaded
    cases hunloaded
  · rw [hcurrent, hprocesses]
    exact ⟨hne, i, hi, Function.update_self ..⟩
  · rw [hterminated] at hq
    obtain ⟨hnull, hthere, hout⟩ := h.gone q hq
    have hqp : q ≠ process := fun heq => hthere (heq ▸ hnone)
    rw [hids, hprocesses, Function.update_of_ne hqp]
    refine ⟨hnull, hthere, fun j hj => ?_⟩
    by_cases hji : j = i
    · subst hji
      rw [Function.update_self]
      exact hqp.symm
    · rw [Function.update_of_ne hji]
      exact hout j hj

/-- Different slots hold different processes. -/
theorem FocusInvariant.slot_inj {s : FocusState H} (h : FocusInvariant s) {i j : Nat} (hi : i < basicOSMaxProcesses)
    (hj : j < basicOSMaxProcesses) (hlive : s.kernel.processes i ≠ 0)
    (heq : s.kernel.processes i = s.kernel.processes j) : i = j := by
  have hid := h.ids i hi hlive
  rw [heq, h.ids j hj (heq ▸ hlive)] at hid
  exact (Option.some_inj.mp hid).symm

theorem FocusInvariant.terminate {s t : FocusState H} (h : FocusInvariant s) {i current' : Nat}
    (hi : i < basicOSMaxProcesses) (hlive : s.kernel.processes i ≠ 0)
    (hfocus : FocusAfter (Function.update s.kernel.processes i 0) (s.kernel.processes i) s.kernel.currentProcess current')
    (htable : TableIs (Function.update s.kernel.processes i 0) current' s.kernel.ids t.kernel)
    (hloaded : t.loaded = s.loaded) (hterminated : t.terminated = s.kernel.processes i :: s.terminated) :
    FocusInvariant t := by
  obtain ⟨hprocesses, hcurrent, hids⟩ := htable
  -- a live process gets the focus, so a load has succeeded
  have hsome : s.loaded = false → s.kernel.currentProcess ≠ s.kernel.processes i := fun hunloaded heq =>
    hlive (heq ▸ h.unloaded hunloaded)
  refine ⟨fun j hj hne => ?_, fun hunloaded => ?_, fun hl => ?_, fun q hq => ?_⟩
  · rw [hprocesses] at hne ⊢
    rw [hids]
    by_cases hji : j = i
    · subst hji
      rw [Function.update_self] at hne
      exact absurd rfl hne
    · rw [Function.update_of_ne hji] at hne ⊢
      exact h.ids j hj hne
  · rw [hloaded] at hunloaded
    unfold FocusAfter at hfocus
    rw [if_neg (hsome hunloaded)] at hfocus
    rw [hcurrent, hfocus]
    exact h.unloaded hunloaded
  · rw [hloaded] at hl
    rw [hcurrent, hprocesses]
    unfold FocusAfter at hfocus
    split at hfocus
    · exact hfocus
    · rename_i hother
      obtain ⟨hne, j, hj, heq⟩ := h.focused hl
      rw [hfocus]
      refine ⟨hne, j, hj, ?_⟩
      rw [Function.update_of_ne (fun hji => hother (by rw [← heq, hji]))]
      exact heq
  · rw [hterminated] at hq
    rw [hids, hprocesses]
    rcases List.mem_cons.mp hq with rfl | hq
    · refine ⟨hlive, by rw [h.ids i hi hlive]; simp, fun j hj => ?_⟩
      by_cases hji : j = i
      · subst hji
        rw [Function.update_self]
        exact hlive.symm
      · rw [Function.update_of_ne hji]
        exact fun heq => hji (h.slot_inj hi hj hlive heq.symm).symm
    · obtain ⟨hnull, hthere, hout⟩ := h.gone q hq
      refine ⟨hnull, hthere, fun j hj => ?_⟩
      by_cases hji : j = i
      · subst hji
        rw [Function.update_self]
        exact hnull.symm
      · rw [Function.update_of_ne hji]
        exact hout j hj

theorem focusInvariant_step {A : Allocator H} {s t : FocusState H} {op : FocusOp} (h : FocusInvariant s)
    (hfresh : FreshBlocks A s op) (hstep : FocusStep A s op t) : FocusInvariant t := by
  have hsame : TableIs s.kernel.processes s.kernel.currentProcess s.kernel.ids s.kernel := ⟨rfl, rfl, rfl⟩
  cases hstep with
  | load hload =>
    rcases (processLoadSwitch_spec A _ _ _ hfresh hsame).returned hload with
      ⟨hneg, htable⟩ | ⟨i, process, hres, hi, hfree, hne, hnone, htable⟩
    · exact h.congr htable (by simp [hneg]) rfl
    · exact h.load hi hne hnone htable (by simp [hres]) rfl
  | terminate hi hlive hterminate =>
    obtain ⟨current', hfocus, htable⟩ := (processTerminate_spec A hsame (h.ids _ hi hlive) hi).returned hterminate
    exact h.terminate hi hlive hfocus htable rfl rfl
  | tick => exact h.congr ⟨rfl, rfl, rfl⟩ rfl rfl

/-- Table and focus as they are to be: a process of the table knows its slot and has no other,
and the focus is null until a load has succeeded and then is a process of the table, none of
those terminated. -/
structure FocusOnTable (s : FocusState H) : Prop where
  id : ∀ i, i < basicOSMaxProcesses → s.kernel.processes i ≠ 0 →
    ∃ P, s.kernel.process (s.kernel.processes i) = some P ∧ P.id = i
  slots : ∀ i j, i < basicOSMaxProcesses → j < basicOSMaxProcesses → s.kernel.processes i ≠ 0 →
    s.kernel.processes i = s.kernel.processes j → i = j
  focus : if s.loaded then s.kernel.currentProcess ≠ 0 ∧
      ∃ i, i < basicOSMaxProcesses ∧ s.kernel.processes i = s.kernel.currentProcess
    else s.kernel.currentProcess = 0
  alive : ∀ process ∈ s.terminated, s.kernel.currentProcess ≠ process

theorem FocusInvariant.onTable {s : FocusState H} (h : FocusInvariant s) : FocusOnTable s := by
  refine ⟨fun i hi hlive => ?_, fun i j hi hj hlive heq => h.slot_inj hi hj hlive heq, ?_, fun process hp heq => ?_⟩
  · have hid := h.ids i hi hlive
    unfold Kernel.ids at hid
    cases hP : s.kernel.process (s.kernel.processes i) with
    | none => simp [hP] at hid
    | some P =>
      rw [hP] at hid
      exact ⟨P, rfl, Option.some_inj.mp hid⟩
  · split
    · exact h.focused ‹_›
    · rename_i hloaded
      exact h.unloaded (Bool.eq_false_iff.mpr hloaded)
  · obtain ⟨hnull, _, hout⟩ := h.gone process hp
    cases hloaded : s.loaded with
    | false => exact hnull (heq ▸ h.unloaded hloaded)
    | true =>
      obtain ⟨_, i, hi, hat⟩ := h.focused hloaded
      exact hout i hi (hat.trans heq)

/-- **In every run of loads, terminations and ticks that gets fresh blocks, table and focus
are as they are to be.** -/
theorem focus_invariant (A : Allocator H) {s : FocusState H}
    (hrun : Run (FocusStep A) (FreshBlocks A) NoProcess s) : FocusOnTable s :=
  (hrun.invariant (fun _ h => h.invariant) fun _ _ _ h hfresh hstep => focusInvariant_step h hfresh hstep).onTable

/-! ### A program -/

/-- A volume with the file `x`, a flat binary of one sector. -/
def flatVolume : Volume where
  disk := smallDisk
  mounted := some ⟨fatHeader smallDisk, [⟨[0x58, 0x20, 0x20, 0x20, 0x20, 0x20, 0x20, 0x20], [0x20, 0x20, 0x20],
    0, 0, 0, 0, 0, 0, 0, 0, 0, 2, 512⟩], 1, 2, 3⟩

def noProcesses : Kernel Ladder := ⟨noFiles, ⟨fun _ => none, 0, 0, 0⟩, fun _ => none, fun _ => none, fun _ => 0, 0⟩

/-- The block for the next process holds none. -/
def nextBlockFresh (k : Kernel Ladder) : Bool :=
  match kzalloc ladder sizeofProcess k.ram with
  | .ok (ptr, _) => (k.process ptr).isNone
  | .error _ => true

theorem freshProcess_ladder {k : Kernel Ladder} (h : nextBlockFresh k = true) : FreshProcess ladder k := by
  intro ptr ram hkzalloc _
  unfold nextBlockFresh at h
  rw [hkzalloc] at h
  exact Option.isNone_iff_eq_none.mp h

/-- Two programs are loaded, and the one with the focus is ended. -/
def loadTwoEndSecond : Program Stop (Kernel Ladder) ((Int × Option Nat) × Bool × (Int × Option Nat) × Nat × Int) := do
  let first ← processLoadSwitch ladder flatVolume ⟨0, 0⟩ pathX
  let kernel ← get
  let second ← processLoadSwitch ladder flatVolume ⟨0, 0⟩ pathX
  let kernel' ← get
  let res ← processTerminate ladder (kernel'.processes 1)
  return (first, nextBlockFresh kernel, second, kernel'.processes 1, res)

set_option maxRecDepth 100000 in
theorem loadTwoEndSecond_returns : ∃ kernel, loadTwoEndSecond noProcesses =
    .ok (((0, some 0x1000000), true, (0, some 0x2060000), 0x2060000, 0), kernel) :=
  result_eq_some (by decide +kernel)

/-- The first program has the focus again. -/
theorem focus_invariant_two_loads : ∃ kernel, (∃ out, loadTwoEndSecond noProcesses = .ok (out, kernel)) ∧
    FocusOnTable (H := Ladder) ⟨kernel, true, [0x2060000]⟩ := by
  obtain ⟨kernel, hrun⟩ := loadTwoEndSecond_returns
  refine ⟨kernel, ⟨_, hrun⟩, ?_⟩
  obtain ⟨first, k₁, hfirst, hrun⟩ := bind_ok.mp hrun
  obtain ⟨k₁', _, hget, hrun⟩ := bind_ok.mp hrun
  cases hget
  obtain ⟨second, k₂, hsecond, hrun⟩ := bind_ok.mp hrun
  obtain ⟨k₂', _, hget, hrun⟩ := bind_ok.mp hrun
  cases hget
  obtain ⟨res, k₃, hend, hret⟩ := bind_ok.mp hrun
  obtain ⟨heq, rfl⟩ := Prod.mk.inj (Except.ok.inj hret)
  obtain ⟨rfl, hfresh, rfl, hat, rfl⟩ : first = (0, some 0x1000000) ∧ nextBlockFresh k₁ = true ∧
      second = (0, some 0x2060000) ∧ k₂.processes 1 = 0x2060000 ∧ res = 0 := by simpa using heq
  have hstart : NoProcess ⟨noProcesses, false, []⟩ := ⟨fun _ _ => rfl, rfl, rfl, rfl⟩
  have hfresh₀ : FreshBlocks ladder ⟨noProcesses, false, []⟩ (.load flatVolume ⟨0, 0⟩ pathX) := fun _ _ _ _ => rfl
  have hload : FocusStep ladder ⟨noProcesses, false, []⟩ (.load flatVolume ⟨0, 0⟩ pathX) ⟨k₁, true, []⟩ :=
    @FocusStep.load Ladder ladder ⟨noProcesses, false, []⟩ flatVolume ⟨0, 0⟩ pathX (0, some 0x1000000) k₁ hfirst
  have hfresh₁ : FreshBlocks ladder ⟨k₁, true, []⟩ (.load flatVolume ⟨0, 0⟩ pathX) := freshProcess_ladder hfresh
  have hload' : FocusStep ladder ⟨k₁, true, []⟩ (.load flatVolume ⟨0, 0⟩ pathX) ⟨k₂, true, []⟩ :=
    @FocusStep.load Ladder ladder ⟨k₁, true, []⟩ flatVolume ⟨0, 0⟩ pathX (0, some 0x2060000) k₂ hsecond
  have hterminate : FocusStep ladder ⟨k₂, true, []⟩ (.terminate (k₂.processes 1)) ⟨k₃, true, [k₂.processes 1]⟩ :=
    @FocusStep.terminate Ladder ladder ⟨k₂, true, []⟩ 1 0 k₃ (by decide) (by rw [hat]; decide) hend
  have hfresh₂ : FreshBlocks ladder ⟨k₂, true, []⟩ (.terminate (k₂.processes 1)) := trivial
  rw [← hat]
  exact focus_invariant ladder (.step (.step (.step (.start hstart) hfresh₀ hload) hfresh₁ hload') hfresh₂ hterminate)

end BasicOS

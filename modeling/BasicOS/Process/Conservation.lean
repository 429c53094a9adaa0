import BasicOS.Process.Focus
import BasicOS.Process.Lifetimes

/-! What a process leaves behind.

A process is loaded, takes and gives back memory, and is terminated. `process_terminate` releases
its allocations, its image, its stack, its task and its directory, and never its structure: the
block `process_load` made for it stays live, whatever was loaded and whatever the process did
in between (`loadExit_leaks`). -/
namespace BasicOS
open Lib Program

variable {H : Type} {A : Allocator H} {C : Contract A} {vol : Volume} {junk : Uninitialised} {filename : List UInt8}
  {s t : Kernel H} {p : Nat}

/-! ### Loading and exiting -/

/-- A call of `process_malloc` or `process_free` for `p`. -/
def LifeOp.CallFor (p : Nat) : LifeOp → Prop
  | .malloc q _ => q = p
  | .free q _ => q = p
  | _ => False

/-- `p` is loaded, makes any such calls, and is terminated. -/
inductive LoadExit (A : Allocator H) (vol : Volume) (junk : Uninitialised) (filename : List UInt8) (s : Kernel H)
  (p : Nat)
    (t : Kernel H) : Prop where
  | mk {s₁ u res} (load : processLoad A vol junk filename s = .ok ((0, some p), s₁))
      (calls : Run (LifeStep A) (fun _ op => op.CallFor p) (· = ⟨s₁, (· = p)⟩) u)
      (exit : processTerminate A p u.kernel = .ok (res, t))

/-- The live blocks of the heap, the open files, the table of processes and the tasks are as before. -/
structure Conserved (C : Contract A) (s t : Kernel H) : Prop where
  heap : C.live t.ram.heap = C.live s.ram.heap
  fileDescriptors : t.files.fileDescriptors = s.files.fileDescriptors
  processes : t.processes = s.processes
  tasks : t.taskList = s.taskList

attribute [local irreducible] processLoad processTerminate

/-- `p` is a resident, through all of its calls. -/
theorem LifeStep.keeps_resident {u v : Lives H} {op : LifeOp} (hstep : LifeStep A u op v) (hop : op.CallFor p)
    (h : ∃ L sp, Populated C u.kernel L ∧ L.space p = some sp) : ∃ L sp, Populated C v.kernel L ∧
    L.space p = some sp := by
  obtain ⟨L, sp, hpopulated, hsp⟩ := h
  cases hstep with
  | load _ => exact hop.elim
  | loadFails _ _ => exact hop.elim
  | terminate _ _ => exact hop.elim
  | @malloc q size ret t _ hmalloc =>
    obtain rfl : q = p := hop
    obtain ⟨_, _, ⟨_, h', _⟩ | ⟨i, n, _, _, _, _, _, _, _, h'⟩⟩ :=
      ((hpopulated.malloc hsp size).mono (fun _ _ h => h) fun _ _ => trivial).returned hmalloc
    · exact ⟨L, sp, h', hsp⟩
    · exact ⟨_, _, h', Function.update_self ..⟩
  | @free q ptr t _ hfree =>
    obtain rfl : q = p := hop
    obtain ⟨_, h' | ⟨i, _, _, h'⟩⟩ := (hpopulated.free hsp ptr).returned hfree
    · exact ⟨L, sp, h', hsp⟩
    · exact ⟨_, _, h', Function.update_self ..⟩

/-- A loaded process is a resident, in a block that was not live. -/
theorem processLoad_resident (hvalid : C.Valid s.ram.heap) (hload : processLoad A vol junk filename s = .ok
    ((0, some p), t)) :
    C.pages s.ram p = 0 ∧ ∃ L sp, Populated C t L ∧ L.space p = some sp := by
  have hloads := processLoad_made hvalid hload
  obtain ⟨sp, L', xs, harrival, hpopulated, _⟩ := hloads.arrival (populated_empty hvalid)
  obtain ⟨_, new⟩ := hloads
  refine ⟨(new.taken.fresh p (by simp)).1, L', sp, hpopulated, ?_⟩
  rw [harrival.space, Function.update_self]

/-- **Nothing is conserved by a load and an exit**: the structure of the process stays. -/
theorem loadExit_leaks (hvalid : C.Valid s.ram.heap) (h : LoadExit A vol junk filename s p t) : ¬ Conserved C s t := by
  obtain ⟨hload, hcalls, hexit⟩ := h
  obtain ⟨hfresh, hresident⟩ := processLoad_resident hvalid hload
  obtain ⟨L, sp, hpopulated, hsp⟩ := hcalls.invariant (I := fun u => ∃ L sp, Populated C u.kernel L ∧
    L.space p = some sp)
    (fun u hu => hu ▸ hresident) fun u op v hu hop hstep => hstep.keeps_resident hop hu
  obtain ⟨_, _, _, _, hstays⟩ := (processTerminate_departure hpopulated hsp).returned hexit
  intro hconserved
  refine hstays ?_
  show C.live t.ram.heap p = 0
  rw [hconserved.heap]
  exact hfresh

/-! ### One program loaded and terminated -/

/-- The answer of the load, the process made, and whether its task can be freed. -/
def loadedProcess : Option ((Int × Option Nat) × Option (Nat × Option Int) × Nat) :=
  match processLoad ladder flatVolume ⟨0, 0⟩ pathX noProcesses with
  | .ok (out, s) => some (out, (s.process 0x1000000).map fun P => (P.id, result (taskFree P.task) s.taskList), s.currentProcess)
  | .error _ => none

set_option maxRecDepth 100000 in
theorem loadedProcess_eq : loadedProcess = some ((0, some 0x1000000), some (0, some 0), 0) := by decide +kernel

theorem noProcesses_valid : ladderContract.Valid noProcesses.ram.heap := ladder_sound

theorem loadExit_flat : ∃ t, LoadExit ladder flatVolume ⟨0, 0⟩ pathX noProcesses 0x1000000 t := by
  have hfacts := loadedProcess_eq
  unfold loadedProcess at hfacts
  cases hload : processLoad ladder flatVolume ⟨0, 0⟩ pathX noProcesses with
  | error e =>
    rw [hload] at hfacts
    cases hfacts
  | ok a =>
    obtain ⟨out, u⟩ := a
    rw [hload] at hfacts
    simp only [Option.some.injEq, Prod.mk.injEq] at hfacts
    obtain ⟨rfl, hprocess, hcurrent⟩ := hfacts
    obtain ⟨P, hP, hP'⟩ := Option.map_eq_some_iff.mp hprocess
    obtain ⟨hid, htask⟩ := Prod.mk.inj hP'
    obtain ⟨_, L, sp, hpopulated, hsp⟩ := processLoad_resident noProcesses_valid hload
    obtain ⟨Q, hQ⟩ := hpopulated.resident _ sp hsp
    obtain rfl : P = Q := Option.some_inj.mp (hP.symm.trans hQ.process)
    have hreturns : wp (processTerminate ladder 0x1000000) (fun _ _ => True) (fun _ => False) u := by
      refine (wp_processTerminate hpopulated hQ hsp).mono (fun _ _ _ => trivial) fun _ hstopped => ?_
      obtain ⟨l, hfree⟩ := result_eq_some htask
      rcases hstopped with ⟨e, he⟩ | hslot | hsame
      · rw [hfree] at he
        cases he
      · rw [hid] at hslot
        exact absurd hslot (by decide)
      · rw [hcurrent] at hsame
        exact absurd hsame (by decide)
    obtain ⟨res, t, hexit, _⟩ := hreturns.returns
    exact ⟨t, .mk hload (.start rfl) hexit⟩

/-- The program is loaded and terminated, and its structure is still live. -/
theorem loadExit_leaks_flat : ∃ t, LoadExit ladder flatVolume ⟨0, 0⟩ pathX noProcesses 0x1000000 t ∧
    ¬ Conserved ladderContract noProcesses t := by
  obtain ⟨t, h⟩ := loadExit_flat
  exact ⟨t, h, loadExit_leaks noProcesses_valid h⟩

theorem loadExit_not_conserved : ¬ ∀ (s t : Kernel Ladder) (vol : Volume) (junk : Uninitialised)
    (filename : List UInt8) (p : Nat),
    ladderContract.Valid s.ram.heap → LoadExit ladder vol junk filename s p t → Conserved ladderContract s t := by
  intro h
  obtain ⟨t, hrun, hleaks⟩ := loadExit_leaks_flat
  exact hleaks (h _ t _ _ _ _ noProcesses_valid hrun)

end BasicOS

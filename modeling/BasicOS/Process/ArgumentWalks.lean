import BasicOS.Process.Arguments
import BasicOS.Memory.Ladder

/-! Whether the walks along a caller's argument list end.

The copy ends by itself: every turn of `process_inject_arguments` either fails or fills one of
the process's slots for allocations, and there are 1024 of them (`injectFrom_ends`), whatever
the turns do to the list. The count in front of it has no such bound and ends just when the
links lead to a null pointer (`argumentWalks_end_iff`), which is up to the caller. -/
namespace BasicOS
open Lib Program

variable {H : Type} {A : Allocator H} {s : Kernel H} {p : Nat}

/-- The program does not loop for ever. -/
def Ends {S B : Type} (x : Program Stop S B) (s : S) : Prop := wp x (fun _ _ => True) (fun e => e ≠ .diverges) s

theorem ends_iff {S B : Type} {x : Program Stop S B} {s : S} : Ends x s ↔ x s ≠ .error .diverges := by
  unfold Ends wp
  cases x s with
  | ok r => simp
  | error e => simp

/-! ### The count -/

/-- A list of 32-bit addresses that ends has fewer nodes than there are addresses. -/
theorem CommandList.length_lt {mem : Memory} {root : Nat} {nodes : List Nat} (h : CommandList mem root nodes)
    (hroot : root < 2 ^ 32) : nodes.length < 2 ^ 32 := by
  have hnodes : ∀ v ∈ nodes, v ≠ 0 ∧ v < 2 ^ 32 := by
    induction h with
    | nil => exact fun v hv => absurd hv List.not_mem_nil
    | cons hne _ ih =>
      intro v hv
      rcases List.mem_cons.mp hv with rfl | hv
      · exact ⟨hne, hroot⟩
      · exact ih (read32_lt _ _) v hv
  have hnull : (0 :: nodes).Nodup := List.nodup_cons.mpr ⟨fun hzero => (hnodes 0 hzero).1 rfl, h.nodup⟩
  have hsub : 0 :: nodes ⊆ List.range (2 ^ 32) := by
    intro v hv
    rw [List.mem_range]
    rcases List.mem_cons.mp hv with rfl | hv
    · decide
    · exact (hnodes v hv).2
  have hle := (hnull.subperm hsub).length_le
  rwa [List.length_range] at hle

theorem processCountCommandArguments_ends_iff {root : Nat} (hroot : root < 2 ^ 32) :
    Ends (processCountCommandArguments root) s ↔ ∃ nodes, CommandList s.ram.mem root nodes := by
  rw [ends_iff]
  unfold processCountCommandArguments
  constructor
  · intro h
    cases hcount : countFrom s.ram.mem (2 ^ 32) root 0 with
    | none =>
      rw [hcount] at h
      exact absurd rfl h
    | some i => exact countFrom_list hcount
  · rintro ⟨nodes, hlist⟩
    rw [countFrom_eq hlist, if_pos (hlist.length_lt hroot)]
    exact nofun

/-! ### The copy -/

theorem kmalloc_ends (size : Nat) (r : Ram H) : Ends (kmalloc A size) r := by
  rw [ends_iff]
  unfold kmalloc
  cases A.kmalloc size r.heap with
  | none => simp
  | some a => simp

theorem kzalloc_ends (size : Nat) (r : Ram H) : Ends (kzalloc A size) r := by
  refine wp.bind (kmalloc_ends size r) fun ptr r _ => ?_
  split
  · trivial
  · trivial

theorem loadProcess_ends (process : Nat) (s : Kernel H) : Ends (loadProcess process) s := by
  rw [ends_iff]
  unfold loadProcess
  cases s.process process with
  | none => simp
  | some P => simp

theorem storeProcess_ends (process : Nat) (P : Process) (s : Kernel H) : Ends (storeProcess process P) s := by
  rw [ends_iff]
  unfold storeProcess
  cases s.process process with
  | none => simp
  | some P => simp

theorem mapInTask_ends (task vAddr pAddr pAddrEnd : Nat) (flags : Int) :
    wp (mapInTask task vAddr pAddr pAddrEnd flags) (fun _ t => ∃ ram, t = s.withRam ram)
      (fun e => e ≠ .diverges) s := by
  cases hT : s.taskList.tasks task with
  | none =>
    have hstops : mapInTask task vAddr pAddr pAddrEnd flags s = .error .fault := by
      unfold mapInTask onTasks zoom loadTask
      rw [bind_apply, hT]
    exact (wp_error hstops).mpr (by decide)
  | some T =>
    unfold mapInTask onRam
    rw [wp_bind, wp_onTasks_loadTask hT, wp_zoom]
    exact ⟨_, rfl⟩

/-- An allocation of the process either fails or fills a slot. -/
theorem processMalloc_slot (size : Nat) :
    wp (processMalloc A p size) (fun ret t => ret = 0 ∨ ∃ P P', s.process p = some P ∧ t.process p = some P' ∧
      freeSlots P'.allocations + 1 = freeSlots P.allocations) (fun e => e ≠ .diverges) s := by
  cases hP : s.process p with
  | none =>
    have hstops : processMalloc A p size s = .error .fault := by
      unfold processMalloc loadProcess
      rw [bind_apply, hP]
    exact (wp_error hstops).mpr (by decide)
  | some P =>
    unfold processMalloc processFindFreeAllocationSlot
    rw [wp_bind, wp_loadProcess hP]
    cases hslot : P.slotOf 0 with
    | none => exact .inl rfl
    | some i =>
      obtain ⟨hi, hempty⟩ := Process.slotOf_some hslot
      simp only
      rw [if_neg (by omega)]
      refine wp.bind (wp.onRam (kzalloc_ends size s.ram)) fun ptr t ht => ?_
      obtain ⟨ram, rfl, _⟩ := ht
      by_cases hptr : ptr = 0
      · rw [if_pos hptr]
        exact .inl rfl
      rw [if_neg hptr]
      refine wp.bind (mapInTask_ends ..) fun res t ht => ?_
      obtain ⟨ram', rfl⟩ := ht
      split
      · exact .inl rfl
      · have hP' : ((s.withRam ram).withRam ram').process p = some P := hP
        rw [wp_bind, wp_loadProcess hP', wp_bind, wp_storeProcess hP']
        exact .inr ⟨P, P.putAllocation i ⟨ptr, size⟩, rfl, Function.update_self .., countP_update hi hempty hptr⟩

/-- So does a turn of the copy. -/
theorem copyArgument_slot (argv current i : Nat) :
    wp (copyArgument A p argv current i) (fun res t => res < 0 ∨ ∃ P P', s.process p = some P ∧ t.process p = some P' ∧
      freeSlots P'.allocations + 1 = freeSlots P.allocations) (fun e => e ≠ .diverges) s := by
  unfold copyArgument
  refine wp.bind (processMalloc_slot sizeofArgument) fun ptr t hslot => ?_
  split
  · exact .inl (by decide)
  · rename_i hptr
    exact .inr (hslot.resolve_left hptr)

/-- **The copy ends**: there are fewer turns than free slots, whatever the list is. -/
theorem injectFrom_ends (argv n current i : Nat) (hslots : ∀ P, s.process p = some P → freeSlots P.allocations < n)
    (hn : 0 < n) : Ends (injectFrom A p argv n current i) s := by
  induction n generalizing s current i with
  | zero => exact absurd hn (Nat.lt_irrefl 0)
  | succ n ih =>
    unfold injectFrom
    split
    · trivial
    · refine wp.bind (copyArgument_slot argv current i) fun res t hslot => ?_
      split
      · trivial
      · rename_i hres
        obtain ⟨P, P', hP, hP', hfree⟩ := hslot.resolve_left hres
        have hlt := hslots P hP
        rw [wp_bind, wp_get]
        refine ih _ _ (fun Q hQ => ?_) (by omega)
        obtain rfl : P' = Q := Option.some_inj.mp (hP'.symm.trans hQ)
        omega

theorem freeSlots_le (allocations : Nat → ProcessAllocation) :
    freeSlots allocations ≤ basicOSMaxAllocationsAllowedPerProcess := by
  unfold freeSlots
  exact List.countP_le_length.trans_eq List.length_range

attribute [local irreducible] injectFrom countFrom

/-- Behind a count that ends the copy ends. -/
theorem processInjectArguments_ends {root : Nat} (hcount : Ends (processCountCommandArguments root) s) :
    Ends (processInjectArguments A p root) s := by
  unfold processInjectArguments
  refine wp.bind hcount fun argc t _ => ?_
  split
  · trivial
  · refine wp.bind ((processMalloc_slot _).mono (fun _ _ _ => trivial) fun _ h => h) fun argv t (_ : True) => ?_
    split
    · trivial
    · refine wp.bind (injectFrom_ends argv _ root 0 (fun P _ => ?_) (by decide)) fun res t _ => ?_
      · exact Nat.lt_of_le_of_lt (freeSlots_le _) (by decide)
      · split
        · trivial
        · exact wp.bind (loadProcess_ends p t) fun P t _ => wp.bind (storeProcess_ends p _ t) fun _ _ _ => trivial

/-! ### Both walks -/

/-- **The walks end exactly when** the links of the list lead to a null pointer. -/
theorem argumentWalks_end_iff (A : Allocator H) (s : Kernel H) (process : Nat) {rootArgument : Nat}
    (hroot : rootArgument < 2 ^ 32) :
    (Ends (processCountCommandArguments rootArgument) s ∧ Ends (processInjectArguments A process rootArgument) s) ↔
      ∃ nodes, CommandList s.ram.mem rootArgument nodes := by
  rw [← processCountCommandArguments_ends_iff hroot]
  exact and_iff_left_of_imp processInjectArguments_ends

/-- No process, and this memory. -/
def walkKernel (mem : Memory) : Kernel Ladder where
  files := ⟨⟨⟨0, []⟩, mem⟩, fun _ => none⟩
  taskList := ⟨fun _ => none, 0, 0, 0⟩
  process := fun _ => none
  elfFile := fun _ => none
  processes := fun _ => 0
  currentProcess := 0

/-- A node with a link to another, the last. -/
def linkedMemory : Memory := write32 (fun _ => 0) 0x500200 0x500300

theorem linkedMemory_list : CommandList linkedMemory 0x500000 [0x500000, 0x500300] := by
  have hnext : commandNext linkedMemory 0x500000 = 0x500300 := read32_write32 _ _ (by decide)
  have hlast : commandNext linkedMemory 0x500300 = 0 := read32_write32_apart _ _ (by decide)
  refine .cons (by decide) ?_
  rw [hnext]
  refine .cons (by decide) ?_
  rw [hlast]
  exact .nil

/-- A list of two nodes. -/
theorem argumentWalks_end_two : Ends (processCountCommandArguments 0x500000) (walkKernel linkedMemory) ∧
    Ends (processInjectArguments ladder 0 0x500000) (walkKernel linkedMemory) :=
  (argumentWalks_end_iff ladder _ 0 (by decide)).mpr ⟨_, linkedMemory_list⟩

/-- A node whose link is to itself. -/
def cyclicMemory : Memory := write32 (fun _ => 0) 0x500200 0x500000

theorem cyclicMemory_next : commandNext cyclicMemory 0x500000 = 0x500000 := read32_write32 _ _ (by decide)

/-- **A caller that hangs the kernel**: the walk goes around a node that links to itself. -/
theorem argumentWalks_hang : ¬ ∀ (s : Kernel Ladder) (process rootArgument : Nat), rootArgument < 2 ^ 32 →
    Ends (processCountCommandArguments rootArgument) s ∧ Ends
      (processInjectArguments ladder process rootArgument) s := by
  intro h
  obtain ⟨nodes, hlist⟩ := (processCountCommandArguments_ends_iff (by decide)).mp
    (h (walkKernel cyclicMemory) 0 0x500000 (by decide)).1
  -- the list behind its first node is the same list
  cases hlist with
  | cons hne hrest =>
    have hsame := hrest
    rw [show commandNext (walkKernel cyclicMemory).ram.mem 0x500000 = 0x500000 from cyclicMemory_next] at hsame
    have hlength := congrArg List.length (hsame.unique (.cons hne hrest))
    rw [List.length_cons] at hlength
    omega

end BasicOS

import BasicOS.Process.Isolation
import BasicOS.Process.Arguments
import BasicOS.Paging.Walk

/-! Programs at work.

Between two system calls a program writes to memory, through its own page directory. A run here takes the
kernel's operations on processes and such stores, in any order. A store goes to a page the program can
write, and as long as the files that are loaded keep their writable segments inside, that page is the
program's own: no store reaches a page table or a structure of the kernel, and the accounts outlive what programs do
(`Lives.Confined.step`). What the others do, from being loaded to being terminated, changes nothing of what
a process has (`LeftAlone.step`). -/
namespace BasicOS
open Lib Program

variable {H : Type} {A : Allocator H} {C : Contract A} {L L' : Ledger} {p q : Nat} {sp sq : Space} {P : Process}
  {held : Nat → Prop}

/-! ### Stores -/

/-- The page directory of the process. -/
def Kernel.directoryOf (s : Kernel H) (p : Nat) : Option Nat := do
  let P ← s.process p
  let T ← s.taskList.tasks P.task
  return read32 s.ram.mem T.pageDirectory

/-- A byte that user mode stored. -/
def userStore (mem : Memory) (directory vAddr : Nat) (byte : UInt8) : Memory :=
  Function.update mem (physicalAddress mem directory vAddr) byte

inductive WorkOp where
  | call (op : LifeOp)
  | store (process vAddr : Nat) (byte : UInt8)

/-- One operation of the kernel that returns, or one store of a process to a page it can write. -/
inductive WorkStep (A : Allocator H) (s : Lives H) : WorkOp → Lives H → Prop where
  | call {op t} (h : LifeStep A s op t) : WorkStep A s (.call op) t
  | store {p vAddr byte directory} (hp : s.live p) (hdirectory : s.kernel.directoryOf p = some directory)
      (hvAddr : vAddr < 2 ^ 32) (hwritable : UserWritable s.kernel.ram.mem directory vAddr) :
      WorkStep A s (.store p vAddr byte)
        ⟨s.kernel.withRam {s.kernel.ram with mem := userStore s.kernel.ram.mem directory vAddr byte}, s.live⟩

def WorkOp.Inside : WorkOp → Prop
  | .call op => op.Inside
  | .store .. => True

/-- The process that acts; a load is made for nobody who is there. -/
def WorkOp.actor : WorkOp → Option Nat
  | .call (.load ..) => none
  | .call (.malloc p _) => some p
  | .call (.free p _) => some p
  | .call (.terminate p) => some p
  | .store p .. => some p

/-- The block is `p`'s, for its own use, and holds the byte. -/
def Ledger.OwnByte (L : Ledger) (p a : Nat) : Prop :=
  ∃ b use, L.Owns p b use ∧ use.Direct ∧ b ≤ a ∧ a < b + L.pages b * heapBlockSize

section Stores

variable {s : Kernel H}

theorem HeldBy.directoryOf {T : Task} {D : DirectoryBlocks} (h : HeldBy C s L p sp P T D) :
    s.directoryOf p = some D.directory := by
  unfold Kernel.directoryOf
  rw [h.process]
  show (do let T ← s.taskList.tasks P.task; _) = _
  rw [h.task]
  exact congrArg some h.chunkOf.directory

/-- What backs a page is the process's, for its own use. -/
theorem Ledger.Backs.own {k b : Nat} (h : L.Backs p sp k b) (hrec : L.Recorded p sp) :
    ∃ use, L.owner b = some ⟨p, use⟩ ∧ use.Direct := by
  cases h with
  | image h => exact ⟨.image, h, trivial⟩
  | stack h => exact ⟨.stack, h, trivial⟩
  | allocation i hi hb _ => exact ⟨.allocation i, hb ▸ (hrec.owned i hi).1, trivial⟩

/-- The page a process stores to is backed by a block that holds the byte. -/
theorem Ledger.Isolated.store_backed {T : Task} {D : DirectoryBlocks} {vAddr : Nat} (h : L.Isolated p sp)
    (hL : L.Placed) (hheld : HeldBy C s L p sp P T D) (hvAddr : vAddr < 2 ^ 32)
    (hwritable : UserWritable s.ram.mem D.directory vAddr) :
    ∃ b, L.pages b ≠ 0 ∧ L.Backs p sp (vAddr / pagingPageSize) b ∧ b ≤ physicalAddress s.ram.mem D.directory vAddr ∧
      physicalAddress s.ram.mem D.directory vAddr < b + L.pages b * heapBlockSize := by
  have hk : vAddr / pagingPageSize < 2 ^ 20 := by
    simp only [pagingPageSize]
    omega
  have hentry := (hheld.tables.pageEntry hvAddr).2
  have hword : Writable (sp.entry (vAddr / pagingPageSize)) := by
    rw [← hentry]
    exact hwritable.2
  obtain ⟨b, hlive, hle, hlt, hback⟩ := h _ hk hword
  have hentry32 : sp.entry (vAddr / pagingPageSize) < 2 ^ 32 := by
    rw [← hentry]
    exact read32_lt _ _
  have halign := (hL.placed b hlive).1
  rw [hheld.tables.physicalAddress hvAddr, and_pageMask hentry32]
  refine ⟨b, hlive, hback, Nat.le_trans hle (Nat.le_add_right ..), ?_⟩
  unfold pageOf at hlt
  simp only [heapBlockSize, pagingPageSize] at *
  omega

/-- A store goes to a byte of the process's own. -/
theorem Ledger.Isolated.store_own {T : Task} {D : DirectoryBlocks} {vAddr : Nat} (h : L.Isolated p sp)
    (hrec : L.Recorded p sp) (hL : L.Placed) (hheld : HeldBy C s L p sp P T D) (hvAddr : vAddr < 2 ^ 32)
    (hwritable : UserWritable s.ram.mem D.directory vAddr) :
    L.OwnByte p (physicalAddress s.ram.mem D.directory vAddr) := by
  obtain ⟨b, hlive, hback, hle, hlt⟩ := h.store_backed hL hheld hvAddr hwritable
  obtain ⟨use, howner, hdirect⟩ := hback.own hrec
  exact ⟨b, use, ⟨hlive, howner⟩, hdirect, hle, hlt⟩

/-- A byte of a block for its own use is in no page table. -/
theorem Populated.own_apart {a b : Nat} (h : Populated C s L) (ha : L.OwnByte p a) (hb : L.Owns q b .paging) :
    ¬ Extent.Holds ⟨b, pagingPageSize⟩ a := by
  obtain ⟨c, use, howns, hdirect, h1, h2⟩ := ha
  intro hin
  refine h.accounts.placed.page_apart hb.live howns.live (hb.ne howns (.inr ?_)) hin ⟨h1, h2⟩
  rintro rfl
  exact hdirect

/-- A byte of `p`'s own is in no block of another. -/
theorem Populated.own_other {a b : Nat} {use : Use} (h : Populated C s L) (ha : L.OwnByte p a) (hb : L.Owns q b use)
    (hqp : q ≠ p) : ¬ (b ≤ a ∧ a < b + L.pages b * heapBlockSize) := by
  obtain ⟨c, use', howns, _, h1, h2⟩ := ha
  intro hin
  have hapart := h.accounts.placed.apart b c hb.live howns.live (hb.ne howns (.inl hqp))
  omega

/-- A store to a byte of the process's own keeps the accounts. -/
theorem Populated.store {a : Nat} (h : Populated C s L) (ha : L.OwnByte p a) (byte : UInt8) :
    Populated C (s.withRam {s.ram with mem := Function.update s.ram.mem a byte}) L := by
  refine h.write fun q b x hb hx => Function.update_of_ne ?_ ..
  rintro rfl
  exact h.own_apart ha hb hx

end Stores

/-! ### Confinement -/

variable {s t : Lives H}

/-- The accounts of a state in which what every process can write is its own. -/
structure Lives.Confined (C : Contract A) (held : Nat → Prop) (s : Lives H) (L : Ledger) : Prop where
  accounted : s.Accounted C L
  confined : L.Confined held
  tidy : L.Tidy

theorem Booted.lives_confined (h : Booted C held s) : s.Confined C held (Ledger.empty (C.live s.kernel.ram.heap)) :=
  ⟨h.nobody.accounted, h.confined, fun _ _ howner => by cases howner⟩

/-- A store by a confined process goes to its own bytes. -/
theorem Lives.Confined.own {vAddr directory : Nat} (h : s.Confined C held L) (hp : s.live p)
    (hdirectory : s.kernel.directoryOf p = some directory) (hvAddr : vAddr < 2 ^ 32)
    (hwritable : UserWritable s.kernel.ram.mem directory vAddr) :
    L.OwnByte p (physicalAddress s.kernel.ram.mem directory vAddr) := by
  obtain ⟨sp, hsp⟩ := h.accounted.live p hp
  have hpopulated := h.accounted.populated
  obtain ⟨P, T, D, hheld⟩ := hpopulated.accounts.held p sp hsp
  obtain rfl : directory = D.directory := Option.some_inj.mp (hdirectory.symm.trans hheld.directoryOf)
  exact (h.confined.isolated p sp hsp).store_own (hpopulated.recorded p sp hsp) hpopulated.accounts.placed hheld hvAddr
    hwritable

/-- **Every step keeps the processes confined.** -/
theorem Lives.Confined.step {op : WorkOp} (h : s.Confined C held L) (hinside : op.Inside) (hstep : WorkStep A s op t) :
    ∃ L', t.Confined C held L' := by
  obtain ⟨haccounted, hconfined, htidy⟩ := h
  cases hstep with
  | call hcall =>
    obtain ⟨L', haccounted', htransaction⟩ := haccounted.transact hcall
    have hconfined' := htransaction.confined hconfined htidy haccounted.populated hinside
    exact ⟨L'.tidy, ⟨haccounted'.populated.tidy, haccounted'.live, haccounted'.closed⟩,
      hconfined'.tidy haccounted'.populated, L'.tidy_tidy⟩
  | @store p vAddr byte directory hp hdirectory hvAddr hwritable =>
    have hown := Lives.Confined.own ⟨haccounted, hconfined, htidy⟩ hp hdirectory hvAddr hwritable
    exact ⟨L, ⟨haccounted.populated.store hown byte, haccounted.live, haccounted.closed⟩, hconfined, htidy⟩

/-- What a process can write is confined in every state of a run of programs. -/
theorem lives_confined_of_run (hrun : Run (WorkStep A) (fun _ op => op.Inside) (Booted C held) s) :
    ∃ L, s.Confined C held L :=
  hrun.invariant (I := fun s => ∃ L, s.Confined C held L) (fun _ h => ⟨_, h.lives_confined⟩)
    fun _ _ _ ⟨_, h⟩ hinside hstep => h.step hinside hstep

/-! ### What the others leave alone -/

/-- From `s` to `t` nothing of `q` changed: not its structure, and no byte of its blocks. -/
structure Ledger.Spares (L : Ledger) (s t : Kernel H) (q : Nat) : Prop where
  process : t.process q = s.process q
  elfFile : ∀ b use, L.Owns q b use → t.elfFile b = s.elfFile b
  directory : ∀ b use, L.Owns q b use → t.taskList.directory b = s.taskList.directory b
  bytes : ∀ b use a, L.Owns q b use → b ≤ a → a < b + L.pages b * heapBlockSize → t.ram.mem a = s.ram.mem a

section Spares

variable {s t u : Kernel H}

theorem Ledger.Spares.refl (s : Kernel H) (q : Nat) : L.Spares s s q :=
  ⟨rfl, fun _ _ _ => rfl, fun _ _ _ => rfl, fun _ _ _ _ _ _ => rfl⟩

theorem Ledger.Spares.trans (h : L.Spares s t q) (h' : L'.Spares t u q) (hkeep : L.Keeps L' q) : L.Spares s u q := by
  refine ⟨h'.process.trans h.process, fun b use hb => ?_, fun b use hb => ?_, fun b use a hb h1 h2 => ?_⟩
  · exact (h'.elfFile b use (hb.keeps hkeep)).trans (h.elfFile b use hb)
  · exact (h'.directory b use (hb.keeps hkeep)).trans (h.directory b use hb)
  · refine (h'.bytes b use a (hb.keeps hkeep) h1 ?_).trans (h.bytes b use a hb h1 h2)
    rw [(hkeep b use hb.live hb.owner).1]
    exact h2

/-- A change of slots of `p` that keeps the bytes no directory of `p` has. -/
theorem SlotsOnly.spares (h : SlotsOnly s t p) (hqp : q ≠ p) (hsteady : ∀ a, L.Steady p a → t.ram.mem a = s.ram.mem a) :
    L.Spares s t q := by
  refine ⟨h.others q hqp, fun b _ _ => congrFun h.elfFile b, fun _ _ _ => by rw [h.taskList], fun b use a hb h1 h2 =>
    hsteady a (.inr ⟨b, hb.live, ?_, h1, h2⟩)⟩
  intro howner
  exact hqp (congrArg Owner.process (Option.some_inj.mp (hb.owner.symm.trans howner)))

/-- The range of a slot is mapped as a whole. -/
theorem Populated.slot_fits {i : Nat} (h : Populated C s L) (hp : L.space p = some sp)
    (hi : i < basicOSMaxAllocationsAllowedPerProcess) : (sp.allocation i).ptr % pagingPageSize = 0 ∧
      (sp.allocation i).ptr + (sp.allocation i).size + pagingPageSize ≤ 2 ^ 32 := by
  by_cases hnull : (sp.allocation i).ptr = 0
  · rw [hnull, (h.recorded p sp hp).empty i hi hnull]
    decide
  · obtain ⟨_, hlive, hroom⟩ := (h.recorded p sp hp).owned i ⟨hi, hnull⟩
    obtain ⟨halign, _, hend⟩ := h.accounts.placed.placed _ hlive
    simp only [heapBlockSize, heapBaseAddress, heapMaxHeapSize, pagingPageSize] at *
    omega

/-- `process_free` writes to the page tables of the process only. -/
theorem processFree_steady (h : Populated C s L) (hp : L.space p = some sp) (ptr : Nat) :
    Ensures (processFree A p ptr) (fun _ t => ∀ a, L.Steady p a → t.ram.mem a = s.ram.mem a) s := by
  obtain ⟨P, T, D, hheld⟩ := h.accounts.held p sp hp
  have hrec := h.recorded p sp hp
  unfold processFree
  rw [Ensures, wp_bind, wp_loadProcess hheld.process]
  cases hslot : P.slotOf ptr with
  | none => exact fun _ _ => rfl
  | some i =>
    obtain ⟨hi, hptr⟩ := Process.slotOf_some hslot
    rw [hheld.allocation] at hptr
    simp only
    rw [hheld.allocation]
    obtain ⟨halign, hfit⟩ := h.slot_fits hp hi
    refine wp.bind ((hheld.mapSelf halign hfit (by decide)).mono (fun _ _ h => h) fun _ _ => trivial)
      fun res s₁ hmapped => ?_
    obtain ⟨rfl, mem, rfl, _, hsame⟩ := hmapped
    rw [wp_when]
    refine ⟨fun _ => ?_, fun hneg => absurd (Int.le_refl 0) hneg⟩
    rw [wp_bind]
    refine (wp_loadProcess (by exact hheld.process)).mpr ?_
    rw [wp_bind]
    refine (wp_storeProcess (by exact hheld.process)).mpr ?_
    exact fun a ha => hsame a (hheld.steady_outside h.accounts.placed ha)

theorem Populated.free_spares (h : Populated C s L) (hp : L.space p = some sp) (hqp : q ≠ p) (ptr : Nat) :
    Ensures (processFree A p ptr) (fun _ t => L.Spares s t q) s := by
  have hslots : Ensures (processFree A p ptr) (fun _ t => SlotsOnly s t p) s :=
    (h.free hp ptr).mono (fun _ _ h => h.1) fun _ _ => trivial
  exact (hslots.and (processFree_steady h hp ptr)).mono fun _ _ ht => ht.1.spares hqp ht.2

/-- What was released was `p`'s. -/
theorem Ledger.Shed.keeps (h : L.Shed p L') (hqp : q ≠ p) : L.Keeps L' q := by
  intro b use hb howner
  refine ⟨(h.kept b).resolve_right ?_, congrFun h.owner b⟩
  rintro ⟨_, i, howner'⟩
  exact hqp (congrArg Owner.process (Option.some_inj.mp (howner.symm.trans howner')))

theorem terminalAllocations_spares (h : Populated C s L) (hp : L.space p = some sp) (hqp : q ≠ p) (n : Nat) :
    Ensures (terminalAllocations A p n) (fun _ t => L.Spares s t q) s := by
  induction n with
  | zero => exact .refl s q
  | succ n ih =>
    have hspec : Ensures (terminalAllocations A p n) (fun _ t => ∃ L', L.Shed p L' ∧ Populated C t L') s :=
      (terminalAllocations_spec h hp n).mono (fun _ _ h => h.2) fun _ _ => trivial
    unfold terminalAllocations
    refine wp.bind (hspec.and ih) fun _ t ht => ?_
    obtain ⟨⟨L₁, hshed, h₁⟩, hspares⟩ := ht
    obtain ⟨sp₁, hspace⟩ := hshed.space
    have hp₁ : L₁.space p = some sp₁ := by rw [hspace, Function.update_self]
    obtain ⟨P, hP⟩ := h₁.resident p sp₁ hp₁
    rw [wp_bind, wp_loadProcess hP.process, wp_when]
    refine ⟨fun _ => ?_, fun _ => hspares⟩
    exact (h₁.free_spares hp₁ hqp _).mono fun _ _ hfree => hspares.trans hfree (hshed.keeps hqp)

attribute [local irreducible] pagingFree4gb tablesBelow terminalAllocations

/-- The end of a process spares the others. -/
theorem processTerminate_spares (h : Populated C s L) (hp : L.space p = some sp) (hqp : q ≠ p) :
    Ensures (processTerminate A p) (fun _ t => L.Spares s t q) s := by
  have hspec : Ensures (terminalAllocations A p basicOSMaxAllocationsAllowedPerProcess)
      (fun _ t => ∃ L', L.Shed p L' ∧ Populated C t L') s :=
    (terminalAllocations_spec h hp _).mono (fun _ _ h => h.2) fun _ _ => trivial
  unfold processTerminate processTerminalAllocations
  rw [Ensures, wp_bind, wp_bind]
  refine wp.mono (hspec.and (terminalAllocations_spares h hp hqp _)) (fun _ s₁ ht => ?_) fun _ _ => trivial
  obtain ⟨⟨L₁, hshed, h₁⟩, hspares⟩ := ht
  rw [wp_pure, if_neg (by decide)]
  obtain ⟨sp₁, hspace⟩ := hshed.space
  have hp₁ : L₁.space p = some sp₁ := by rw [hspace, Function.update_self]
  obtain ⟨P₁, hP₁⟩ := h₁.resident p sp₁ hp₁
  refine (processTerminate_dismantles h₁ hp₁ hP₁).mono (fun _ t ht => ?_) fun _ _ => trivial
  obtain ⟨ys, hd⟩ := ht
  refine hspares.trans ⟨congrFun hd.process q, fun b use hb => hd.elfFile b fun hmem => ?_, fun b use hb => ?_,
    fun _ _ a _ _ _ => congrFun hd.freed.mem a⟩ (hshed.keeps hqp)
  · obtain ⟨use', _, hb'⟩ := hd.owned b hmem
    exact hb.ne hb' (.inl hqp) rfl
  · rw [hd.tasks, Function.update_of_ne (hb.ne hP₁.task (.inl hqp))]

/-- The structures at `b` are the same. -/
structure KeepsAt (s t : Kernel H) (b : Nat) : Prop where
  process : t.process b = s.process b
  elfFile : t.elfFile b = s.elfFile b
  directory : t.taskList.directory b = s.taskList.directory b

/-- A load leaves every structure in a live block as it is. -/
theorem LoadOutcome.others {vol : Volume} {junk : Uninitialised} {filename : List UInt8} {slot : Int}
    {out : Int × Option Nat} (hout : LoadOutcome C vol junk filename slot s out t) (hvalid : C.Valid s.ram.heap) (b : Nat)
    (hb : C.pages s.ram b ≠ 0) : KeepsAt s t b := by
  have hfresh : ∀ process r, process ≠ 0 → kzalloc A sizeofProcess s.ram = .ok (process, r) → b ≠ process := by
    rintro process r hne hrequest rfl
    obtain ⟨hnull, _⟩ | ⟨_, htaken, _⟩ := ((Taken.refl hvalid).kzalloc sizeofProcess).returned hrequest
    · exact hne hnull
    · exact hb (htaken.fresh b (List.mem_singleton_self _)).1
  cases hout with
  | noProcess => exact ⟨rfl, rfl, rfl⟩
  | unstarted hne hrequest hunstarted =>
    have hbp := hfresh _ _ hne hrequest
    obtain ⟨_, _, _, _, _, rfl⟩ := hunstarted
    exact ⟨(Function.update_of_ne hbp ..).trans (Function.update_of_ne hbp ..), rfl, rfl⟩
  | failed hne hrequest _ _ frame _ _ =>
    exact ⟨frame.process b (hfresh _ _ hne hrequest), frame.elfFile b hb, frame.directory b hb⟩
  | loaded hne hrequest _ _ frame _ =>
    exact ⟨frame.process b (hfresh _ _ hne hrequest), frame.elfFile b hb, frame.directory b hb⟩

theorem processLoadSwitch_others {vol : Volume} {filename : List UInt8} (junk : Uninitialised) (hvalid : C.Valid s.ram.heap) :
    Ensures (processLoadSwitch A vol junk filename) (fun _ t => ∀ b, C.pages s.ram b ≠ 0 → KeepsAt s t b) s := by
  have hload : Ensures (processLoad A vol junk filename) (fun _ t => ∀ b, C.pages s.ram b ≠ 0 → KeepsAt s t b) s := by
    unfold processLoad
    rw [Ensures, wp_bind, wp_get]
    dsimp only
    split
    · exact fun _ _ => ⟨rfl, rfl, rfl⟩
    rename_i hslot
    exact (processLoadForSlot_outcome junk _ hvalid (getProcess_freeSlot hslot)).mono fun _ _ hout b hb =>
      hout.others hvalid b hb
  unfold processLoadSwitch
  refine wp.bind hload fun out t hothers => ?_
  rw [wp_bind, wp_when]
  refine ⟨fun _ => fun b hb => ?_, fun _ => hothers⟩
  obtain ⟨hprocess, helf, hdirectory⟩ := hothers b hb
  exact ⟨hprocess, helf, hdirectory⟩

/-- A load spares everyone who is there. -/
theorem Populated.taken_spares {xs : List Nat} (h : Populated C s L) (hq : L.space q = some sq)
    (hothers : ∀ b, C.pages s.ram b ≠ 0 → KeepsAt s t b) (htaken : Taken C s.ram t.ram xs) : L.Spares s t q := by
  obtain ⟨Q, hQ⟩ := h.resident q sq hq
  refine ⟨(hothers q (h.accounts.live_iff.mp hQ.self.live)).process, fun b _ hb => ?_, fun b _ hb => ?_,
    fun b _ a hb h1 h2 => ?_⟩
  · exact (hothers b (h.accounts.live_iff.mp hb.live)).elfFile
  · exact (hothers b (h.accounts.live_iff.mp hb.live)).directory
  · refine htaken.same b a (h.accounts.live_iff.mp hb.live) ?_
    rw [h.accounts.pages] at h2
    exact ⟨h1, h2⟩

end Spares

attribute [local irreducible] processTerminate processLoadSwitch

/-- **An operation of another process spares `q`**, and so does a load. -/
theorem LifeStep.spares {op : LifeOp} (h : s.Accounted C L) (hq : L.space q = some sq) (hstep : LifeStep A s op t)
    (hne : (WorkOp.call op).actor ≠ some q) : L.Spares s.kernel t.kernel q := by
  have hvalid := h.populated.accounts.valid
  cases hstep with
  | load hload =>
    have hothers := (processLoadSwitch_others (C := C) _ hvalid).returned hload
    rcases (processLoadSwitch_loads (C := C) _ hvalid).returned hload with hneg | ⟨_, _, _, frame, new⟩
    · exact absurd hneg (by simp)
    · exact h.populated.taken_spares hq hothers new.taken
  | loadFails hload hneg =>
    have hothers := (processLoadSwitch_others (C := C) _ hvalid).returned hload
    obtain ⟨_, _, _, htaken⟩ := (processLoadSwitch_stays _ h.populated h.closed).returned hload hneg
    exact h.populated.taken_spares hq hothers htaken
  | malloc hp hmalloc =>
    obtain ⟨sp, hsp⟩ := h.live _ hp
    obtain ⟨hslots, hsteady, _⟩ := ((h.populated.malloc hsp _).mono (fun _ _ h => h) fun _ _ => trivial).returned hmalloc
    exact hslots.spares (fun heq => hne (congrArg some heq.symm)) hsteady
  | free hp hfree =>
    obtain ⟨sp, hsp⟩ := h.live _ hp
    exact (h.populated.free_spares hsp (fun heq => hne (congrArg some heq.symm)) _).returned hfree
  | terminate hp hterminate =>
    obtain ⟨sp, hsp⟩ := h.live _ hp
    exact (processTerminate_spares h.populated hsp fun heq => hne (congrArg some heq.symm)).returned hterminate

/-- The space and the blocks of `q` outlive what the others do. -/
theorem Ledger.Transaction.others {s t : Kernel H} {op : LifeOp} (htransaction : L.Transaction C s t op L')
    (hpopulated : Populated C s L) (hq : L.space q = some sq) (hne : (WorkOp.call op).actor ≠ some q) :
    L'.space q = some sq ∧ L.Keeps L' q := by
  cases htransaction with
  | @arrival vol junk filename process P other D chunk entry u processes current _ _ _ harrival =>
    refine ⟨?_, harrival.keeps q⟩
    have hqp : q ≠ process := by
      rintro rfl
      rw [harrival.new] at hq
      cases hq
    rw [harrival.space, Function.update_of_ne hqp, hq]
  | kept hkept => exact ⟨hq, fun b _ hb _ => ⟨hkept b hb, rfl⟩⟩
  | @malloc p sp i ptr size n _ _ _ _ hfresh =>
    have hqp : q ≠ p := fun heq => hne (congrArg some heq.symm)
    exact ⟨(Function.update_of_ne hqp ..).trans hq, Ledger.keeps_malloc hfresh q⟩
  | @free p ptr sp i hsp hi =>
    have hqp : q ≠ p := fun heq => hne (congrArg some heq.symm)
    exact ⟨(Function.update_of_ne hqp ..).trans hq, Ledger.keeps_free (hpopulated.recorded p sp hsp) hi hqp⟩
  | @departure p _ hdeparture =>
    have hqp : q ≠ p := fun heq => hne (congrArg some heq.symm)
    exact ⟨by rw [hdeparture.space, Function.update_of_ne hqp, hq], hdeparture.keeps hqp⟩

/-- What `q` has in `t` is what it had in `s`: its structure, the words of its pages, the blocks it uses and every
byte in them. -/
structure SameFor (C : Contract A) (q : Nat) (s t : Kernel H) : Prop where
  process : t.process q = s.process q
  word : ∀ k, k < 2 ^ 20 → t.pageWord q k = s.pageWord q k
  block : ∀ Q b, s.process q = some Q → Q.Uses s b → Q.Uses t b ∧ C.pages t.ram b = C.pages s.ram b ∧
    ∀ a, (C.block s.ram b).Holds a → t.ram.mem a = s.ram.mem a

/-- Process `q` is there as it was in `s`, where the ledger was `L` and its space `sq`. -/
structure LeftAlone (C : Contract A) (held : Nat → Prop) (L : Ledger) (q : Nat) (sq : Space) (s t : Lives H)
    (L' : Ledger) : Prop where
  confined : t.Confined C held L'
  live : t.live q
  space : L'.space q = some sq
  keeps : L.Keeps L' q
  spares : L.Spares s.kernel t.kernel q

theorem Ledger.Keeps.trans {L'' : Ledger} (h : L.Keeps L' q) (h' : L'.Keeps L'' q) : L.Keeps L'' q := by
  intro b use hb howner
  obtain ⟨hpages, howner'⟩ := h b use hb howner
  obtain ⟨hpages', howner''⟩ := h' b use (by rwa [hpages]) (by rwa [howner'])
  exact ⟨hpages'.trans hpages, howner''.trans howner'⟩

/-- **A step that is not its own leaves a process undisturbed.** -/
theorem LeftAlone.step {u : Lives H} {op : WorkOp} (h : LeftAlone C held L q sq s t L') (hinside : op.Inside)
    (hne : op.actor ≠ some q) (hstep : WorkStep A t op u) : ∃ L'', LeftAlone C held L q sq s u L'' := by
  obtain ⟨hconfined, hlive, hspace, hkeeps, hspares⟩ := h
  cases hstep with
  | @call op u hcall =>
    obtain ⟨L'', haccounted, htransaction⟩ := hconfined.accounted.transact hcall
    obtain ⟨hspace', hkeeps'⟩ := htransaction.others hconfined.accounted.populated hspace hne
    have hnext := htransaction.confined hconfined.confined hconfined.tidy hconfined.accounted.populated hinside
    refine ⟨L''.tidy, ⟨⟨haccounted.populated.tidy, haccounted.live, haccounted.closed⟩,
      hnext.tidy haccounted.populated, L''.tidy_tidy⟩, ?_, hspace', hkeeps.trans (hkeeps'.trans (Ledger.keeps_tidy hspace')),
      hspares.trans (hcall.spares hconfined.accounted hspace hne) hkeeps⟩
    cases hcall with
    | load => exact .inr hlive
    | terminate => exact ⟨hlive, fun heq => hne (congrArg some heq.symm)⟩
    | _ => exact hlive
  | @store p vAddr byte directory hp hdirectory hvAddr hwritable =>
    have hown := hconfined.own hp hdirectory hvAddr hwritable
    have hqp : q ≠ p := fun heq => hne (congrArg some heq.symm)
    obtain ⟨haccounted, hconfined, htidy⟩ := hconfined
    refine ⟨L', ⟨⟨haccounted.populated.store hown byte, haccounted.live, haccounted.closed⟩, hconfined, htidy⟩, hlive, hspace,
      hkeeps, hspares.trans ⟨rfl, fun _ _ _ => rfl, fun _ _ _ => rfl, fun b use a hb h1 h2 => ?_⟩ hkeeps⟩
    refine Function.update_of_ne ?_ ..
    rintro rfl
    exact haccounted.populated.own_other hown hb hqp ⟨h1, h2⟩

theorem LeftAlone.sameFor (hconfined : s.Confined C held L) (hq : L.space q = some sq)
    (h : LeftAlone C held L q sq s t L') : SameFor C q s.kernel t.kernel := by
  have hpopulated := hconfined.accounted.populated
  obtain ⟨Q, hres⟩ := hpopulated.resident q sq hq
  obtain ⟨Q', T, D, hheld⟩ := hpopulated.accounts.held q sq hq
  obtain rfl : Q = Q' := Option.some_inj.mp (hres.process.symm.trans hheld.process)
  obtain ⟨_, _, _, hheld'⟩ := h.confined.accounted.populated.accounts.held q sq h.space
  refine ⟨h.spares.process, fun k hk => (hheld'.pageWord hk).trans (hheld.pageWord hk).symm, fun Q' b hQ' huses => ?_⟩
  obtain rfl : Q' = Q := Option.some_inj.mp (hQ'.symm.trans hres.process)
  obtain ⟨use, howner, _⟩ := huses.owned hres (hpopulated.recorded q sq hq) hheld.allocation
  have hlive : L.pages b ≠ 0 := by
    cases huses with
    | elf htype hF hblock =>
      cases hres.image with
      | flat hflat _ => exact absurd (htype.symm.trans hflat) (by decide)
      | elf _ hF' _ himage =>
        obtain rfl := Option.some_inj.mp (hF.symm.trans hF')
        exact hblock ▸ himage.live
    | flat htype hblock =>
      cases hres.image with
      | elf helf _ _ _ => exact absurd (htype.symm.trans helf) (by decide)
      | flat _ himage => exact hblock ▸ himage.live
    | stack hblock => exact hblock ▸ hres.stack.live
    | allocation i hi hused hblock =>
      rw [hheld.allocation] at hused hblock
      exact hblock ▸ ((hpopulated.recorded q sq hq).owned i ⟨hi, hused⟩).2.1
  obtain ⟨use', hptr, _⟩ := hres.ptr
  have helf := h.spares.elfFile _ _ hptr
  have hpages := (h.keeps b use hlive howner).1
  rw [hpopulated.accounts.pages, h.confined.accounted.populated.accounts.pages] at hpages
  refine ⟨?_, hpages, fun a ha => h.spares.bytes b use a ⟨hlive, howner⟩ ha.1 ?_⟩
  · cases huses with
    | elf htype hF hblock => exact .elf htype (helf.trans hF) hblock
    | flat htype hblock => exact .flat htype hblock
    | stack hblock => exact .stack hblock
    | allocation i hi hused hblock => exact .allocation i hi hused hblock
  · rw [hpopulated.accounts.pages]
    exact ha.2

end BasicOS

import BasicOS.Process.Loading

/-! Processes as residents of the ledger.

A kernel is `Populated` when every space of the ledger belongs to a process whose
structure, task, stack, image and directory are blocks of its own. A load that succeeds is
then an arrival (`Populated.arrival`), one that fails takes blocks nobody uses
(`Populated.framed`), and `process_terminate` is a departure (`processTerminate_departure`). -/
namespace BasicOS
open Lib Program

variable {H : Type} {A : Allocator H} {C : Contract A} {s t : Kernel H} {L L' : Ledger} {p q : Nat} {sp : Space}
  {P : Process}

/-! ### Residents -/

/-- The live block `b` is `p`'s. -/
structure Ledger.Owns (L : Ledger) (p b : Nat) (use : Use) : Prop where
  live : L.pages b ≠ 0
  owner : L.owner b = some ⟨p, use⟩

/-- The image is a block of `p`'s; of an ELF file so is its `struct elf_file`. -/
inductive Process.ImageOwned (s : Kernel H) (L : Ledger) (p : Nat) (P : Process) : Prop where
  | elf {F} (filetype : P.filetype = processFormatElf) (file : s.elfFile P.ptr = some F)
      (header : L.Owns p P.ptr .elfFile) (image : L.Owns p F.elfMemory .image) : P.ImageOwned s L p
  | flat (filetype : P.filetype = processFormatFbin) (image : L.Owns p P.ptr .image) : P.ImageOwned s L p

structure Resident (s : Kernel H) (L : Ledger) (p : Nat) (P : Process) : Prop where
  process : s.process p = some P
  self : L.Owns p p .process
  task : L.Owns p P.task .task
  stack : L.Owns p P.stack .stack
  image : P.ImageOwned s L p

structure Populated (C : Contract A) (s : Kernel H) (L : Ledger) : Prop where
  accounts : Accounts C s L
  recorded : ∀ p sp, L.space p = some sp → L.Recorded p sp
  resident : ∀ p sp, L.space p = some sp → ∃ P, Resident s L p P

/-- Nobody there. -/
def Ledger.empty (pages : Nat → Nat) : Ledger := ⟨pages, fun _ => none, fun _ => none⟩

theorem populated_empty (hvalid : C.Valid s.ram.heap) : Populated C s (Ledger.empty (C.live s.ram.heap)) := by
  have hnone : ∀ p sp, (Ledger.empty (C.live s.ram.heap)).space p ≠ some sp := fun p sp h => by cases h
  exact ⟨⟨hvalid, rfl, fun p sp h => absurd h (hnone p sp)⟩, fun p sp h => absurd h (hnone p sp),
    fun p sp h => absurd h (hnone p sp)⟩

theorem Ledger.Owns.keeps {b : Nat} {use : Use} (h : L.Owns p b use) (hkeep : L.Keeps L' p) : L'.Owns p b use := by
  obtain ⟨hpages, howner⟩ := hkeep b use h.live h.owner
  exact ⟨by rw [hpages]; exact h.live, by rw [howner]; exact h.owner⟩

/-- Blocks of two processes, or of two uses, are different. -/
theorem Ledger.Owns.ne {b c : Nat} {use use' : Use} (h : L.Owns p b use) (h' : L.Owns q c use')
    (hne : p ≠ q ∨ use ≠ use') : b ≠ c := by
  rintro rfl
  have howner := h.owner.symm.trans h'.owner
  simp only [Option.some.injEq, Owner.mk.injEq] at howner
  rcases hne with hne | hne
  · exact hne howner.1
  · exact hne howner.2

theorem Process.ImageOwned.keeps {P' : Process} (h : P.ImageOwned s L p) (hkeep : L.Keeps L' p)
    (hfiletype : P'.filetype = P.filetype) (hptr : P'.ptr = P.ptr) (helf : t.elfFile P.ptr = s.elfFile P.ptr) :
    P'.ImageOwned t L' p := by
  cases h with
  | elf htype hF hheader himage =>
    refine .elf (hfiletype.trans htype) ?_ (hptr ▸ hheader.keeps hkeep) (himage.keeps hkeep)
    rw [hptr, helf, hF]
  | flat htype himage => exact .flat (hfiletype.trans htype) (hptr ▸ himage.keeps hkeep)

/-- A resident whose structure and blocks are as they were. -/
theorem Resident.keeps {P' : Process} (h : Resident s L p P) (hkeep : L.Keeps L' p) (hP : t.process p = some P')
    (hsame : P'.task = P.task ∧ P'.stack = P.stack ∧ P'.filetype = P.filetype ∧ P'.ptr = P.ptr)
    (helf : t.elfFile P.ptr = s.elfFile P.ptr) : Resident t L' p P' := by
  obtain ⟨htask, hstack, hfiletype, hptr⟩ := hsame
  exact ⟨hP, h.self.keeps hkeep, htask ▸ h.task.keeps hkeep, hstack ▸ h.stack.keeps hkeep,
    h.image.keeps hkeep hfiletype hptr helf⟩

/-- Only memory, processes, tasks and ELF files count. -/
theorem Populated.congr (h : Populated C s L) (hram : t.ram = s.ram) (hprocess : t.process = s.process)
    (htasks : t.taskList.tasks = s.taskList.tasks) (helf : t.elfFile = s.elfFile) : Populated C t L := by
  refine ⟨⟨by rw [hram]; exact h.accounts.valid, by rw [hram]; exact h.accounts.pages, fun p sp hsp => ?_⟩, h.recorded,
    fun p sp hsp => ?_⟩
  · obtain ⟨P, T, D, hheld⟩ := h.accounts.held p sp hsp
    exact ⟨P, T, D, by rw [hprocess]; exact hheld.process, by rw [htasks]; exact hheld.task, hheld.allocation,
      by rw [hram]; exact hheld.chunkOf, by rw [hram]; exact hheld.tables, hheld.blocks, hheld.nodup⟩
  · obtain ⟨P, hP⟩ := h.resident p sp hsp
    exact ⟨P, hP.keeps (fun _ _ _ _ => ⟨rfl, rfl⟩) (by rw [hprocess]; exact hP.process) ⟨rfl, rfl, rfl, rfl⟩
      (by rw [helf])⟩

/-! ### Allocations and releases -/

/-- A process after a change of its slots. -/
theorem Resident.slotsOnly (h : Resident s L p P) (hkeep : L.Keeps L' p) (hslots : SlotsOnly s t q) :
    ∃ P', Resident t L' p P' := by
  have helf : t.elfFile P.ptr = s.elfFile P.ptr := by rw [hslots.elfFile]
  by_cases hpq : p = q
  · subst hpq
    obtain ⟨a, hP'⟩ := hslots.self P h.process
    exact ⟨_, h.keeps hkeep hP' ⟨rfl, rfl, rfl, rfl⟩ helf⟩
  · exact ⟨P, h.keeps hkeep ((hslots.others p hpq).trans h.process) ⟨rfl, rfl, rfl, rfl⟩ helf⟩

/-- The blocks a process does not have as an allocation outlive its releases. -/
theorem Resident.release {i : Nat} {a : Nat → ProcessAllocation} (h : Resident s L p P) (hrec : L.Recorded p sp)
    (hi : sp.Holds i) (hP : t.process p = some {P with allocations := a}) (helf : t.elfFile = s.elfFile) :
    Resident t (L.free p sp i) p {P with allocations := a} := by
  have hkept : ∀ b use, L.Owns p b use → use ≠ .allocation i → (L.free p sp i).Owns p b use := by
    intro b use hb huse
    have hne : b ≠ (sp.allocation i).ptr := hb.ne ⟨(hrec.owned i hi).2.1, (hrec.owned i hi).1⟩ (.inr huse)
    refine ⟨?_, hb.owner⟩
    show Function.update L.pages _ 0 b ≠ 0
    rw [Function.update_of_ne hne]
    exact hb.live
  refine ⟨hP, hkept _ _ h.self (by simp), hkept _ _ h.task (by simp), hkept _ _ h.stack (by simp), ?_⟩
  cases h.image with
  | elf htype hF hheader himage =>
    exact .elf htype (by rw [helf]; exact hF) (hkept _ _ hheader (by simp)) (hkept _ _ himage (by simp))
  | flat htype himage => exact .flat htype (hkept _ _ himage (by simp))

theorem Populated.malloc (h : Populated C s L) (hp : L.space p = some sp) (size : Nat) :
    wp (processMalloc A p size) (fun ret t => SlotsOnly s t p ∧
      (∀ a, L.Steady p a → t.ram.mem a = s.ram.mem a) ∧
      ((ret = 0 ∧ Populated C t L ∧ (sp.Full ∨ A.kmalloc size s.ram.heap = some (0, t.ram.heap))) ∨
      ∃ i n, i < basicOSMaxAllocationsAllowedPerProcess ∧ (sp.allocation i).ptr = 0 ∧ ret ≠ 0 ∧ L.pages ret = 0 ∧
        n ≠ 0 ∧ size ≤ n * heapBlockSize ∧ A.kmalloc size s.ram.heap = some (ret, t.ram.heap) ∧
        Populated C t (L.malloc p sp i ret size n))) (fun _ => A.kmalloc size s.ram.heap = none) s := by
  refine wp.mono (processMalloc_spec h.accounts hp size) (fun ret t hmalloc => ?_) fun _ hnone => hnone
  obtain ⟨hslots, hsteady, ⟨hnull, haccounts, hwhy⟩ | ⟨i, n, hi, hempty, hne, hfree, hn, hsize, hanswer, haccounts⟩⟩ := hmalloc
  · refine ⟨hslots, hsteady, .inl ⟨hnull, ⟨haccounts, h.recorded, fun q sq hq => ?_⟩, hwhy⟩⟩
    obtain ⟨Q, hQ⟩ := h.resident q sq hq
    exact hQ.slotsOnly (fun _ _ _ _ => ⟨rfl, rfl⟩) hslots
  · refine ⟨hslots, hsteady, .inr ⟨i, n, hi, hempty, hne, hfree, hn, hsize, hanswer, haccounts, ?_, ?_⟩⟩
    · refine Ledger.forall_space (P := fun L q sq => L.Recorded q sq) h.recorded rfl (fun q sq _ _ hrec => ?_) ?_
      · exact hrec.keeps (Ledger.keeps_malloc hfree q)
      · rintro sp' ⟨⟩
        exact (h.recorded p sp hp).malloc hne hfree hn hsize haccounts.placed
    · refine Ledger.updated_space (L := L) (P := fun q _ => ∃ Q, Resident _ _ q Q) rfl (fun q sq _ hq => ?_) fun _ _ => ?_
      · obtain ⟨Q, hQ⟩ := h.resident q sq hq
        exact hQ.slotsOnly (Ledger.keeps_malloc hfree q) hslots
      · obtain ⟨Q, hQ⟩ := h.resident p sp hp
        exact hQ.slotsOnly (Ledger.keeps_malloc hfree p) hslots

theorem Populated.free (h : Populated C s L) (hp : L.space p = some sp) (ptr : Nat) :
    wp (processFree A p ptr) (fun _ t => SlotsOnly s t p ∧ (Populated C t L ∨
      ∃ i, sp.Holds i ∧ (sp.allocation i).ptr = ptr ∧ Populated C t (L.free p sp i))) (fun _ => False) s := by
  have hrec := h.recorded p sp hp
  refine wp.mono (processFree_spec h.accounts hp hrec ptr) (fun _ t hfree => ?_) fun _ h => h
  obtain ⟨hslots, ⟨haccounts, _⟩ | ⟨i, hi, hptr, haccounts⟩⟩ := hfree
  · refine ⟨hslots, .inl ⟨haccounts, h.recorded, fun q sq hq => ?_⟩⟩
    obtain ⟨Q, hQ⟩ := h.resident q sq hq
    exact hQ.slotsOnly (fun _ _ _ _ => ⟨rfl, rfl⟩) hslots
  · refine ⟨hslots, .inr ⟨i, hi, hptr, haccounts, ?_, ?_⟩⟩
    · refine Ledger.forall_space (P := fun L q sq => L.Recorded q sq) h.recorded rfl (fun q sq hqp _ hrecq => ?_) ?_
      · exact hrecq.keeps (Ledger.keeps_free hrec hi hqp)
      · rintro sp' ⟨⟩
        exact hrec.free h.accounts.placed hi
    · refine Ledger.updated_space (L := L) (P := fun q _ => ∃ Q, Resident _ _ q Q) rfl (fun q sq hqp hq => ?_) fun _ _ => ?_
      · obtain ⟨Q, hQ⟩ := h.resident q sq hq
        exact hQ.slotsOnly (Ledger.keeps_free hrec hi hqp) hslots
      · obtain ⟨Q, hQ⟩ := h.resident p sp hp
        obtain ⟨a, ha⟩ := hslots.self Q hQ.process
        exact ⟨_, hQ.release hrec hi ha hslots.elfFile⟩

/-! ### Arrivals -/

theorem Accounts.live_iff (h : Accounts C s L) {b : Nat} : L.pages b ≠ 0 ↔ C.pages s.ram b ≠ 0 := by
  rw [h.pages]

/-- A resident is there as before if nothing that makes it up has changed. -/
theorem Populated.untouched {sq : Space} (h : Populated C s L) (hq : L.space q = some sq)
    (hprocess : t.process q = s.process q)
    (hdirectory : ∀ Q, Resident s L q Q → t.taskList.directory Q.task = s.taskList.directory Q.task)
    (helf : ∀ Q, Resident s L q Q → t.elfFile Q.ptr = s.elfFile Q.ptr) (hkeep : L.Keeps L' q)
    (hmem : ∀ b a, L.Owns q b .paging → Extent.Holds ⟨b, pagingPageSize⟩ a → t.ram.mem a = s.ram.mem a) :
    Held C t L' q sq ∧ ∃ Q, Resident t L' q Q := by
  obtain ⟨Q, T, D, hheld⟩ := h.accounts.held q sq hq
  obtain ⟨Q', hQ⟩ := h.resident q sq hq
  obtain rfl : Q = Q' := Option.some_inj.mp (hheld.process.symm.trans hQ.process)
  have htask : t.taskList.directory Q.task = some T.pageDirectory := by
    rw [hdirectory Q hQ]
    unfold TaskList.directory
    rw [hheld.task]
    rfl
  obtain ⟨T', hT', hdir⟩ := loadTask_chunk htask
  refine ⟨⟨Q, T', D, hheld.frame hprocess hT' hdir hkeep fun b hb a ha => ?_⟩, Q,
    hQ.keeps hkeep (hprocess.trans hQ.process) ⟨rfl, rfl, rfl, rfl⟩ (helf Q hQ)⟩
  exact hmem b a ⟨(hheld.blocks b hb).1, (hheld.blocks b hb).2⟩ ha

/-- The pointer of a resident's image is a block of its own. -/
theorem Resident.ptr (h : Resident s L p P) : ∃ use, L.Owns p P.ptr use ∧ (use = .image ∨ use = .elfFile) := by
  cases h.image with
  | elf _ _ hheader _ => exact ⟨_, hheader, .inr rfl⟩
  | flat _ himage => exact ⟨_, himage, .inl rfl⟩

/-- A load leaves every resident as it was. -/
theorem Populated.stays {process : Nat} {xs : List Nat} {sq : Space} (h : Populated C s L) (hq : L.space q = some sq)
    (hqp : q ≠ process) (hframe : LoadFrame C s.ram process s t) (htaken : Taken C s.ram t.ram xs)
    (hkeep : L.Keeps L' q) : Held C t L' q sq ∧ ∃ Q, Resident t L' q Q := by
  refine h.untouched hq (hframe.process q hqp) (fun Q hQ => ?_) (fun Q hQ => ?_) hkeep fun b a hb ha => ?_
  · exact hframe.directory Q.task (h.accounts.live_iff.mp hQ.task.live)
  · obtain ⟨_, hptr, _⟩ := hQ.ptr
    exact hframe.elfFile _ (h.accounts.live_iff.mp hptr.live)
  · have hlive := h.accounts.live_iff.mp hb.live
    rw [Extent.holds_mk] at ha
    exact htaken.same b a hlive (Contract.holds_page hlive ha.1 ha.2)

/-- Taking blocks keeps those of the ledger. -/
theorem Populated.kept_taken {xs : List Nat} (h : Populated C s L) (htaken : Taken C s.ram t.ram xs) :
    ∀ b, L.pages b ≠ 0 → C.live t.ram.heap b = L.pages b := by
  intro b hb
  rw [h.accounts.pages] at hb ⊢
  exact htaken.kept b hb

/-- Blocks that nobody owns may be taken. -/
theorem Populated.framed {process : Nat} {xs : List Nat} (h : Populated C s L) (hnew : L.space process = none)
    (hframe : LoadFrame C s.ram process s t) (htaken : Taken C s.ram t.ram xs) :
    Populated C t {L with pages := C.live t.ram.heap} := by
  have hkeep : ∀ q, L.Keeps {L with pages := C.live t.ram.heap} q := fun q b use hb _ => ⟨h.kept_taken htaken b hb, rfl⟩
  have hne : ∀ q sq, L.space q = some sq → q ≠ process := by
    rintro q sq hq rfl
    rw [hnew] at hq
    cases hq
  exact ⟨⟨htaken.valid, rfl, fun q sq hq => (h.stays hq (hne q sq hq) hframe htaken (hkeep q)).1⟩,
    fun q sq hq => (h.recorded q sq hq).keeps (hkeep q),
    fun q sq hq => (h.stays hq (hne q sq hq) hframe htaken (hkeep q)).2⟩

/-- The blocks of a new process with their uses. -/
def newUse (D : DirectoryBlocks) (chunk process : Nat) (P : Process) (other b : Nat) : Option Use :=
  if b ∈ D.blocks chunk then some .paging
  else if b = P.task then some .task
  else if b = P.stack then some .stack
  else if b = process then some .process
  else if b = P.ptr then some (if P.filetype = processFormatElf then .elfFile else .image)
  else if b = other then some (if P.filetype = processFormatElf then .image else .elfFile)
  else none

/-- Process `p` arrives with the blocks `use` names. -/
def Ledger.arrive (L : Ledger) (p : Nat) (sp : Space) (pages : Nat → Nat) (use : Nat → Option Use) : Ledger where
  pages := pages
  owner b := match use b with
    | some u => some ⟨p, u⟩
    | none => L.owner b
  space := Function.update L.space p (some sp)

/-- The space of a new process. -/
abbrev newSpace (entry : Nat → Nat) : Space := ⟨entry, fun _ => ⟨0, 0⟩⟩

section Arrival

variable {vol : Volume} {filename : List UInt8} {r₀ : Ram H} {process other chunk : Nat} {D : DirectoryBlocks}
  {entry : Nat → Nat}

theorem newUse_none {b : Nat} (h : b ∉ D.blocks chunk ++ [P.task, P.stack, P.ptr, other, process]) :
    newUse D chunk process P other b = none := by
  simp only [List.mem_append, List.mem_cons, List.not_mem_nil, or_false, not_or] at h
  obtain ⟨h1, h2, h3, h4, h5, h6⟩ := h
  unfold newUse
  rw [if_neg h1, if_neg h2, if_neg h3, if_neg h6, if_neg h4, if_neg h5]

theorem newUse_own (h : (D.blocks chunk ++ [P.task, P.stack, P.ptr, other, process]).Nodup) :
    newUse D chunk process P other P.task = some .task ∧ newUse D chunk process P other P.stack = some .stack ∧
      newUse D chunk process P other process = some .process ∧
      newUse D chunk process P other P.ptr = some (if P.filetype = processFormatElf then .elfFile else .image) ∧
      newUse D chunk process P other other = some (if P.filetype = processFormatElf then .image else .elfFile) := by
  obtain ⟨_, hnodup, hout⟩ := List.nodup_append.mp h
  have hpaging : ∀ b ∈ [P.task, P.stack, P.ptr, other, process], b ∉ D.blocks chunk :=
    fun b hb hmem => hout b hmem b hb rfl
  simp only [List.nodup_cons, List.mem_cons, List.not_mem_nil, or_false, not_or, not_false_eq_true,
    List.nodup_nil, and_true] at hnodup
  obtain ⟨⟨h1, h2, h3, h4⟩, ⟨h5, h6, h7⟩, ⟨h8, h9⟩, h10⟩ := hnodup
  unfold newUse
  refine ⟨?_, ?_, ?_, ?_, ?_⟩
  · rw [if_neg (hpaging _ (by simp)), if_pos rfl]
  · rw [if_neg (hpaging _ (by simp)), if_neg (Ne.symm h1), if_pos rfl]
  · rw [if_neg (hpaging _ (by simp)), if_neg (Ne.symm h4), if_neg (Ne.symm h7), if_pos rfl]
  · rw [if_neg (hpaging _ (by simp)), if_neg (Ne.symm h2), if_neg (Ne.symm h5), if_neg h9, if_pos rfl]
  · rw [if_neg (hpaging _ (by simp)), if_neg (Ne.symm h3), if_neg (Ne.symm h6), if_neg h10, if_neg (Ne.symm h8),
      if_pos rfl]

/-- The ledger after a process has arrived. -/
abbrev arrived (L : Ledger) (D : DirectoryBlocks) (chunk process : Nat) (P : Process) (other : Nat) (entry : Nat → Nat)
    (pages : Nat → Nat) : Ledger :=
  L.arrive process (newSpace entry) pages (newUse D chunk process P other)

/-- The blocks of the new process are in the ledger under their uses. -/
structure Ledger.Enters (L' : Ledger) (C : Contract A) (t : Kernel H) (process : Nat) (use : Nat → Option Use) :
    Prop where
  pages : L'.pages = C.live t.ram.heap
  owner : ∀ b u, use b = some u → L'.owner b = some ⟨process, u⟩

theorem arrived_enters : (arrived L D chunk process P other entry (C.live t.ram.heap)).Enters C t process
    (newUse D chunk process P other) := by
  refine ⟨rfl, fun b u hu => ?_⟩
  unfold arrived Ledger.arrive
  simp only [hu]

section Enters

variable (hent : L'.Enters C t process (newUse D chunk process P other))
  (hnew : NewProcess C vol filename s.ram process P other D chunk entry t)
include hent hnew

theorem NewProcess.live : ∀ b ∈ D.blocks chunk ++ [P.task, P.stack, P.ptr, other, process], L'.pages b ≠ 0 := by
  intro b hb
  rw [hent.pages]
  exact (hnew.taken.fresh b hb).2

theorem NewProcess.resident : Resident t L' process P := by
  have hlive := hnew.live hent
  obtain ⟨htask, hstack, hself, hptr, hother⟩ := newUse_own hnew.taken.nodup
  have howner := hent.owner
  refine ⟨hnew.made, ⟨hlive _ (by simp), howner _ _ hself⟩, ⟨hlive _ (by simp), howner _ _ htask⟩,
    ⟨hlive _ (by simp), howner _ _ hstack⟩, ?_⟩
  cases hnew.mapped.image with
  | elf htype hF hmemory _ =>
    rw [if_pos htype] at hptr hother
    refine .elf htype hF ⟨hlive _ (by simp), howner _ _ hptr⟩ ?_
    rw [hmemory]
    exact ⟨hlive _ (by simp), howner _ _ hother⟩
  | flat htype _ _ =>
    rw [if_neg (by rw [htype]; decide)] at hptr
    exact .flat htype ⟨hlive _ (by simp), howner _ _ hptr⟩

theorem NewProcess.held : Held C t L' process (newSpace entry) := by
  have hmapped := hnew.mapped
  obtain ⟨T, hT, hdir⟩ := loadTask_chunk hmapped.directory
  refine ⟨P, T, D, hnew.made, hT, hnew.allocations, hdir ▸ hmapped.chunkOf, hmapped.tables, fun b hb => ?_, ?_⟩
  · rw [hdir] at hb
    refine ⟨hnew.live hent b (List.mem_append_left _ hb), hent.owner b .paging ?_⟩
    unfold newUse
    rw [if_pos hb]
  · rw [hdir]
    exact (List.nodup_append.mp hnew.taken.nodup).1

end Enters

/-- No process was at the address of the new one. -/
theorem Populated.space_fresh {xs : List Nat} (h : Populated C s L) (htaken : Taken C s.ram t.ram xs)
    (hmem : process ∈ xs) : L.space process = none := by
  by_contra hsome
  obtain ⟨sp, hsp⟩ := Option.ne_none_iff_exists'.mp hsome
  obtain ⟨Q, hQ⟩ := h.resident process sp hsp
  exact h.accounts.live_iff.mp hQ.self.live (htaken.fresh process hmem).1

/-- What the ledger holds stays in it. -/
theorem Populated.arrived_kept (h : Populated C s L) (entry : Nat → Nat)
    (htaken : Taken C s.ram t.ram (D.blocks chunk ++ [P.task, P.stack, P.ptr, other, process])) :
    ∀ b, L.pages b ≠ 0 → (arrived L D chunk process P other entry (C.live t.ram.heap)).pages b = L.pages b ∧
      (arrived L D chunk process P other entry (C.live t.ram.heap)).owner b = L.owner b := by
  intro b hb
  have hnone : newUse D chunk process P other b = none :=
    newUse_none fun hmem => h.accounts.live_iff.mp hb (htaken.fresh b hmem).1
  refine ⟨h.kept_taken htaken b hb, ?_⟩
  unfold arrived Ledger.arrive
  simp only [hnone]

/-- **A load that succeeds is an arrival.** -/
theorem Populated.arrival (h : Populated C s L) (hframe : LoadFrame C s.ram process s t)
    (hnew : NewProcess C vol filename s.ram process P other D chunk entry t) :
    L.Arrival process (newSpace entry) (arrived L D chunk process P other entry (C.live t.ram.heap)) ∧
      Populated C t (arrived L D chunk process P other entry (C.live t.ram.heap)) ∧
      Resident t (arrived L D chunk process P other entry (C.live t.ram.heap)) process P := by
  have htaken := hnew.taken
  have hkept := h.arrived_kept entry htaken
  have hent : (arrived L D chunk process P other entry (C.live t.ram.heap)).Enters C t process _ := arrived_enters
  have hspace : (arrived L D chunk process P other entry (C.live t.ram.heap)).space =
      Function.update L.space process (some (newSpace entry)) := rfl
  generalize arrived L D chunk process P other entry (C.live t.ram.heap) = L' at hkept hent hspace ⊢
  have harrival : L.Arrival process (newSpace entry) L' := ⟨h.space_fresh htaken (by simp), hkept, hspace⟩
  have hstays : ∀ q sq, q ≠ process → L.space q = some sq → Held C t L' q sq ∧ ∃ Q, Resident t L' q Q :=
    fun q sq hqp hq => h.stays hq hqp hframe htaken (harrival.keeps q)
  have hresident := hnew.resident hent
  refine ⟨harrival, ⟨⟨htaken.valid, hent.pages, ?_⟩, ?_, ?_⟩, hresident⟩
  · refine Ledger.updated_space hspace (fun q sq hqp hq => (hstays q sq hqp hq).1) fun sp hsp => ?_
    obtain rfl := Option.some_inj.mp hsp
    exact hnew.held hent
  · refine Ledger.forall_space (P := fun L q sq => L.Recorded q sq) h.recorded hspace (fun q sq _ _ hrec => ?_) ?_
    · exact hrec.keeps (harrival.keeps q)
    · rintro sp ⟨⟩
      exact ⟨fun i hi => absurd rfl hi.used, fun i k hi => absurd rfl hi.used, fun i _ _ => rfl⟩
  · exact Ledger.updated_space (P := fun q _ => ∃ Q, Resident t L' q Q) hspace
      (fun q sq hqp hq => (hstays q sq hqp hq).2) fun sp _ => ⟨P, hresident⟩

end Arrival

/-- What a load that succeeds does: a new process, entered in the table and perhaps made current. -/
inductive Loads (C : Contract A) (vol : Volume) (filename : List UInt8) (s : Kernel H) (process : Nat) : Kernel H →
  Prop where
  | mk {P other D chunk entry u processes current} (frame : LoadFrame C s.ram process s u)
      (new : NewProcess C vol filename s.ram process P other D chunk entry u) :
      Loads C vol filename s process {u with processes := processes, currentProcess := current}

theorem getProcess_freeSlot (hslot : ¬ s.getFreeProcessSlot < 0) : s.getProcess s.getFreeProcessSlot = 0 := by
  rcases getFreeProcessSlot_spec s with hnone | ⟨i, hi, hlt, hzero⟩
  · rw [hnone] at hslot
    exact absurd (by decide) hslot
  · rw [hi]
    unfold Kernel.getProcess
    rw [if_neg (by omega)]
    exact hzero

/-- A load that does not fail makes a process. -/
theorem processLoad_loads {vol : Volume} {filename : List UInt8} (junk : Uninitialised) (hvalid : C.Valid s.ram.heap) :
    Ensures (processLoad A vol junk filename) (fun out t =>
      out.1 < 0 ∨ ∃ process, out = (0, some process) ∧ Loads C vol filename s process t) s := by
  unfold processLoad
  rw [Ensures, wp_bind, wp_get]
  dsimp only
  split
  · exact .inl (by decide)
  rename_i hslot
  have hfree : s.getProcess s.getFreeProcessSlot = 0 := getProcess_freeSlot hslot
  refine (processLoadForSlot_outcome junk s.getFreeProcessSlot hvalid hfree).mono fun out t ht => ?_
  cases ht with
  | noProcess _ => exact .inl (by decide)
  | unstarted _ _ _ => exact .inl (by decide)
  | failed _ _ _ hneg _ _ _ => exact .inl hneg
  | loaded _ _ _ _ frame new => exact .inr ⟨_, rfl, .mk frame new⟩

/-- A process that was loaded. -/
theorem processLoad_made {vol : Volume} {junk : Uninitialised} {filename : List UInt8} (hvalid : C.Valid s.ram.heap)
    (hload : processLoad A vol junk filename s = .ok ((0, some p), t)) :
    Loads C vol filename s p t := by
  rcases (processLoad_loads junk hvalid).returned hload with hneg | ⟨q, hout, hloads⟩
  · exact absurd hneg (lt_irrefl (0 : Int))
  · obtain rfl : p = q := Option.some_inj.mp (Prod.mk.inj hout).2
    exact hloads

theorem processLoadSwitch_loads {vol : Volume} {filename : List UInt8} (junk : Uninitialised)
    (hvalid : C.Valid s.ram.heap) : Ensures (processLoadSwitch A vol junk filename) (fun out t =>
      out.1 < 0 ∨ ∃ process, out = (0, some process) ∧ t.currentProcess = process ∧
        Loads C vol filename s process t) s := by
  unfold processLoadSwitch
  refine wp.bind (processLoad_loads junk hvalid) fun out t ht => ?_
  rcases ht with hneg | ⟨process, rfl, hloads⟩
  · rw [wp_bind, when_false (show ¬ out.1 = 0 by omega)]
    exact .inl hneg
  · rw [wp_bind, when_true rfl]
    cases hloads with
    | @mk _ _ _ _ _ u _ _ frame new => exact .inr ⟨process, rfl, rfl, .mk (u := u) frame new⟩

/-- A new process is an arrival. -/
theorem Loads.arrival {vol : Volume} {filename : List UInt8} {process : Nat} (hloads : Loads C vol filename s process t)
    (h : Populated C s L) : ∃ sp L' xs, L.Arrival process sp L' ∧ Populated C t L' ∧ Taken C s.ram t.ram xs := by
  obtain ⟨frame, new⟩ := hloads
  obtain ⟨harrival, hpopulated, _⟩ := h.arrival frame new
  exact ⟨_, _, _, harrival, hpopulated.congr rfl rfl rfl rfl, new.taken⟩

/-! ### Departures -/

/-- At most allocations of `p` were released. -/
structure Ledger.Shed (L : Ledger) (p : Nat) (L' : Ledger) : Prop where
  kept : ∀ b, L'.pages b = L.pages b ∨ L'.pages b = 0 ∧ ∃ i, L.owner b = some ⟨p, .allocation i⟩
  owner : L'.owner = L.owner
  space : ∃ sp, L'.space = Function.update L.space p (some sp)

theorem Ledger.Shed.refl (hp : L.space p = some sp) : L.Shed p L :=
  ⟨fun _ => .inl rfl, rfl, sp, by rw [← hp, Function.update_eq_self]⟩

theorem Ledger.Shed.free {i : Nat} (h : L.Shed p L') (hrec : L'.Recorded p sp) (hi : sp.Holds i) :
    L.Shed p (L'.free p sp i) := by
  obtain ⟨sp', hspace⟩ := h.space
  refine ⟨fun b => ?_, h.owner, sp.free i, ?_⟩
  · show Function.update L'.pages _ 0 b = _ ∨ Function.update L'.pages _ 0 b = 0 ∧ _
    by_cases hb : b = (sp.allocation i).ptr
    · subst hb
      refine .inr ⟨Function.update_self .., i, ?_⟩
      rw [← h.owner]
      exact (hrec.owned i hi).1
    · rw [Function.update_of_ne hb]
      exact h.kept b
  · show Function.update L'.space p _ = _
    rw [hspace, Function.update_idem]

theorem terminalAllocations_spec (h : Populated C s L) (hp : L.space p = some sp) (n : Nat) :
    wp (terminalAllocations A p n) (fun _ t => SlotsOnly s t p ∧ ∃ L', L.Shed p L' ∧ Populated C t L')
      (fun _ => False) s := by
  induction n with
  | zero => exact ⟨SlotsOnly.refl s p, L, .refl hp, h⟩
  | succ n ih =>
    unfold terminalAllocations
    refine wp.bind ih fun _ t ht => ?_
    obtain ⟨hslots, L₁, hshed, h₁⟩ := ht
    obtain ⟨sp₁, hspace⟩ := hshed.space
    have hp₁ : L₁.space p = some sp₁ := by rw [hspace, Function.update_self]
    obtain ⟨P, hP⟩ := h₁.resident p sp₁ hp₁
    rw [wp_bind, wp_loadProcess hP.process, wp_when]
    refine ⟨fun _ => ?_, fun _ => ⟨hslots, L₁, hshed, h₁⟩⟩
    refine (h₁.free hp₁ _).mono (fun _ u hfree => ?_) fun _ h => h
    obtain ⟨hslots', h₂ | ⟨i, hi, _, h₂⟩⟩ := hfree
    · exact ⟨hslots.trans hslots', L₁, hshed, h₂⟩
    · exact ⟨hslots.trans hslots', _, hshed.free (h₁.recorded p sp₁ hp₁) hi, h₂⟩

/-- The blocks released belong to `p`, for the uses given. -/
def Ledger.OwnsAll (L : Ledger) (p : Nat) (uses : List Use) (xs : List Nat) : Prop :=
  ∀ b ∈ xs, ∃ use ∈ uses, L.Owns p b use

/-- What is used otherwise is not among the blocks. -/
theorem Ledger.OwnsAll.not_mem {uses : List Use} {use : Use} {xs : List Nat} {b : Nat} (hxs : L.OwnsAll p uses xs)
    (hb : L.Owns p b use) (huse : use ∉ uses) : b ∉ xs := by
  intro hmem
  obtain ⟨use', huse', hb'⟩ := hxs b hmem
  refine hb.ne hb' (.inr ?_) rfl
  rintro rfl
  exact huse huse'

theorem Ledger.OwnsAll.append {uses uses' : List Use} {xs ys : List Nat} (hxs : L.OwnsAll p uses xs)
    (hys : L.OwnsAll p uses' ys) : L.OwnsAll p (uses ++ uses') (xs ++ ys) := by
  intro b hb
  rcases List.mem_append.mp hb with hb | hb
  · obtain ⟨use, huse, hown⟩ := hxs b hb
    exact ⟨use, List.mem_append_left _ huse, hown⟩
  · obtain ⟨use, huse, hown⟩ := hys b hb
    exact ⟨use, List.mem_append_right _ huse, hown⟩

theorem Ledger.OwnsAll.single {use : Use} {b : Nat} (hb : L.Owns p b use) : L.OwnsAll p [use] [b] := by
  intro e he
  rw [List.mem_singleton.mp he]
  exact ⟨use, List.mem_singleton_self _, hb⟩

/-- The stack is released after the image. -/
theorem Freed.stack {uses : List Use} {xs : List Nat} {r₀ r : Ram H} {P : Process} (hfreed : Freed C r₀ r xs)
    (hxs : L.OwnsAll p uses xs) (hstack : L.Owns p P.stack .stack) (huse : Use.stack ∉ uses)
    (hlive : C.pages r₀ P.stack ≠ 0) : Freed C r₀ (released A P.stack r) (xs ++ [P.stack]) := by
  refine hfreed.trans (freed_kfree hfreed.valid ?_)
  rw [hfreed.kept _ (hxs.not_mem hstack huse)]
  exact hlive

section

variable {T : Task} {D : DirectoryBlocks}

theorem HeldBy.owns (h : HeldBy C s L p sp P T D) : ∀ b ∈ D.blocks T.pageDirectory, L.Owns p b .paging :=
  fun b hb => ⟨(h.blocks b hb).1, (h.blocks b hb).2⟩

theorem HeldBy.directory (h : HeldBy C s L p sp P T D) : s.taskList.directory P.task = some T.pageDirectory := by
  unfold TaskList.directory
  rw [h.task]
  rfl

/-- While blocks of other uses go, the directory stays. -/
theorem HeldBy.directoryLive {uses : List Use} {xs : List Nat} {r : Ram H} (h : HeldBy C s L p sp P T D)
    (hacc : Accounts C s L) (hfreed : Freed C s.ram r xs) (hxs : L.OwnsAll p uses xs) (huse : Use.paging ∉ uses) :
    DirectoryLive C r D T.pageDirectory := by
  refine ⟨?_, ⟨sp.entry, ?_⟩, fun b hb => ?_, h.nodup⟩
  · rw [hfreed.mem]
    exact h.chunkOf
  · rw [hfreed.mem]
    exact h.tables
  · rw [hfreed.kept _ (hxs.not_mem (h.owns b hb) huse)]
    exact hacc.live_iff.mp (h.owns b hb).live

end

/-- The image is released. -/
theorem processUnloadProcess_spec (h : Populated C s L) (hP : Resident s L p P) :
    wp (processUnloadProcess A p) (fun res t => res = 0 ∧ ∃ ram elfFile xs,
      t = {s.withRam ram with elfFile := elfFile} ∧
      Freed C s.ram ram xs ∧ L.OwnsAll p [.image, .elfFile] xs ∧ ∀ e, e ∉ xs → elfFile e = s.elfFile e)
      (fun _ => False) s := by
  have hlive : ∀ {b use}, L.Owns p b use → C.pages s.ram b ≠ 0 := fun hb => h.accounts.live_iff.mp hb.live
  unfold processUnloadProcess
  rw [wp_bind, wp_loadProcess hP.process]
  cases hP.image with
  | flat htype himage =>
    rw [if_pos htype]
    refine ⟨rfl, _, _, [P.ptr], rfl, freed_kfree h.accounts.valid (hlive himage), fun b hb => ?_, fun _ _ => rfl⟩
    rw [List.mem_singleton.mp hb]
    exact ⟨.image, by simp, himage⟩
  | @elf F htype hF hheader himage =>
    have hne : P.ptr ≠ 0 := Contract.ne_null h.accounts.valid (hlive hheader)
    have hapart : P.ptr ≠ F.elfMemory := hheader.ne himage (.inr (by simp))
    rw [if_neg (by rw [htype]; decide), if_pos htype]
    unfold elfClose onRam kfree
    rw [when_true hne, wp_bind, wp_bind, wp_loadElfFile hF, wp_bind, wp_zoom, wp_modify, wp_bind, wp_zoom, wp_modify,
      wp_modify]
    have hfreed := freed_kfree h.accounts.valid (hlive himage)
    have hptr : C.pages (released A F.elfMemory s.ram) P.ptr ≠ 0 := by
      rw [hfreed.kept P.ptr (by simpa using hapart)]
      exact hlive hheader
    refine ⟨rfl, _, _, [F.elfMemory] ++ [P.ptr], rfl, hfreed.trans (freed_kfree hfreed.valid hptr), fun b hb => ?_,
      fun e he => ?_⟩
    · rcases List.mem_append.mp hb with hb | hb
      · rw [List.mem_singleton.mp hb]
        exact ⟨.image, by simp, himage⟩
      · rw [List.mem_singleton.mp hb]
        exact ⟨.elfFile, by simp, hheader⟩
    · refine Function.update_of_ne ?_ ..
      rintro rfl
      exact he (by simp)

/-- Unlinking changes the table of processes only. It stops where the slot is none, or where the
process is the current one and there is no other. -/
theorem processUnlink_frame (hP : s.process p = some P) : wp (processUnlink p) (fun _ t =>
    t.files = s.files ∧ t.taskList = s.taskList ∧ t.process = s.process ∧ t.elfFile = s.elfFile)
    (fun _ => basicOSMaxProcesses ≤ P.id ∨ s.currentProcess = p ∧
      ∀ i, i < basicOSMaxProcesses → i ≠ P.id → s.processes i = 0) s := by
  unfold processUnlink setProcess
  rw [wp_bind, wp_loadProcess hP, wp_bind, wp_bind, wp_when]
  refine ⟨fun hslot => .inl (by omega), fun _ => ?_⟩
  rw [wp_modify, wp_bind, wp_get, wp_when]
  refine ⟨fun hcurrent => ?_, fun _ => ⟨rfl, rfl, rfl, rfl⟩⟩
  unfold processSwitchAvailable processSwitch
  rw [wp_bind, wp_get]
  split
  · exact ⟨rfl, rfl, rfl, rfl⟩
  · rename_i hnone
    refine .inr ⟨hcurrent, fun i hi hne => ?_⟩
    have hzero := List.find?_eq_none.mp hnone i (List.mem_range.mpr hi)
    rw [decide_eq_true_eq, not_not] at hzero
    exact (Function.update_of_ne hne ..).symm.trans hzero

attribute [local irreducible] pagingFree4gb tablesBelow terminalAllocations

/-- What the end of `p` does after its allocations are released: blocks of its own are released,
but not its structure, and its task is freed. -/
structure Dismantled (C : Contract A) (s : Kernel H) (L : Ledger) (p : Nat) (P : Process) (t : Kernel H)
  (ys : List Nat) :
    Prop where
  freed : Freed C s.ram t.ram ys
  owned : ∀ b ∈ ys, ∃ use, use ≠ .process ∧ L.Owns p b use
  elfFile : ∀ e, e ∉ ys → t.elfFile e = s.elfFile e
  tasks : t.taskList.directory = Function.update s.taskList.directory P.task none
  process : t.process = s.process
  fileDescriptors : t.files.fileDescriptors = s.files.fileDescriptors

theorem processTerminate_dismantles (h : Populated C s L) (hp : L.space p = some sp) (hP : Resident s L p P) :
    wp (do
      let res ← processUnloadProcess A p
      let P ← loadProcess p
      onRam (kfree A P.stack)
      freeTask A P.task
      processUnlink p
      return res) (fun _ t => ∃ ys, Dismantled C s L p P t ys)
      (fun _ => (∃ e, taskFree P.task s.taskList = .error e) ∨ basicOSMaxProcesses ≤ P.id ∨
        s.currentProcess = p) s := by
  obtain ⟨P', T, D, hheld⟩ := h.accounts.held p sp hp
  obtain rfl : P = P' := Option.some_inj.mp (hP.process.symm.trans hheld.process)
  refine wp.bind ((processUnloadProcess_spec h hP).mono (fun _ _ h => h) fun _ h => h.elim) fun res u hu => ?_
  obtain ⟨rfl, r₂, elfFile, xs, rfl, hfreed, howned, helf⟩ := hu
  rw [wp_bind]
  refine (wp_loadProcess (by exact hP.process)).mpr ?_
  -- the stack
  rw [wp_bind, show onRam (kfree A P.stack) = modify (fun s => s.withRam (released A P.stack s.ram)) from rfl,
    wp_modify]
  have hfreed' := hfreed.stack howned hP.stack (by simp) (h.accounts.live_iff.mp hP.stack.live)
  have howned' := howned.append (.single hP.stack)
  -- the directory and the task
  have htaskLive : C.pages (released A P.stack r₂) P.task ≠ 0 := by
    rw [hfreed'.kept _ (howned'.not_mem hP.task (by simp))]
    exact h.accounts.live_iff.mp hP.task.live
  refine wp.bind ((freeTask_freed (s := {s.withRam (released A P.stack r₂) with elfFile := elfFile}) hheld.directory
    hfreed'.valid (hheld.directoryLive h.accounts hfreed' howned' (by simp)) htaskLive fun hmem =>
      (hheld.owns _ hmem).ne hP.task (.inr (by simp)) rfl).mono (fun _ _ h => h) fun e he => .inl ⟨e, he⟩) fun _ u hu => ?_
  obtain ⟨r₄, tasks, rfl, htasks, hfreed''⟩ := hu
  refine wp.bind ((processUnlink_frame (by exact hP.process)).mono (fun _ _ h => h)
    fun _ h => .inr (h.imp_right And.left)) fun _ u hu => ?_
  obtain ⟨hfiles, htaskList, hprocess, helfFile⟩ := hu
  have hpaging : L.OwnsAll p [.paging] (D.blocks T.pageDirectory) := fun b hb =>
    ⟨_, List.mem_singleton_self _, hheld.owns b hb⟩
  have hall : L.OwnsAll p [.image, .elfFile, .stack, .paging, .task]
      (xs ++ [P.stack] ++ (D.blocks T.pageDirectory ++ [P.task])) := howned'.append (hpaging.append (.single hP.task))
  refine ⟨xs ++ [P.stack] ++ (D.blocks T.pageDirectory ++ [P.task]), ?_, fun b hb => ?_, fun e he => ?_, ?_, hprocess,
    ?_⟩
  · rw [show u.ram = r₄ from congrArg Files.ram hfiles]
    exact hfreed'.trans hfreed''
  · obtain ⟨use, huse, hb⟩ := hall b hb
    refine ⟨use, ?_, hb⟩
    rintro rfl
    simp at huse
  · rw [helfFile]
    refine helf e fun hmem => he ?_
    rw [List.append_assoc]
    exact List.mem_append_left _ hmem
  · rw [htaskList]
    exact htasks
  · rw [hfiles]
    rfl

/-- Then `p` has departed. -/
theorem Dismantled.departure {ys : List Nat} (hd : Dismantled C s L p P t ys) (h : Populated C s L)
    (hP : Resident s L p P) :
    L.Departure p ⟨C.live t.ram.heap, L.owner, Function.update L.space p none⟩ ∧
      Populated C t ⟨C.live t.ram.heap, L.owner, Function.update L.space p none⟩ := by
  generalize hL' : (⟨C.live t.ram.heap, L.owner, Function.update L.space p none⟩ : Ledger) = L'
  have hspace : L'.space = Function.update L.space p none := by
    subst hL'
    rfl
  have hdeparture : L.Departure p L' := by
    subst hL'
    refine ⟨fun b => ?_, rfl, rfl⟩
    by_cases hb : b ∈ ys
    · obtain ⟨use, _, hb'⟩ := hd.owned b hb
      exact .inr ⟨hd.freed.gone b hb, use, hb'.owner⟩
    · rw [h.accounts.pages]
      exact .inl (hd.freed.kept b hb)
  have huntouched : ∀ q sq, q ≠ p → L.space q = some sq → Held C t L' q sq ∧ ∃ Q, Resident t L' q Q := by
    intro q sq hqp hq
    refine h.untouched hq (by rw [hd.process]) (fun Q hQ => ?_) (fun Q hQ => ?_) (hdeparture.keeps hqp)
      fun b a _ _ => ?_
    · rw [hd.tasks, Function.update_of_ne (hQ.task.ne hP.task (.inl hqp))]
    · obtain ⟨use, hptr, _⟩ := hQ.ptr
      refine hd.elfFile _ fun hmem => ?_
      obtain ⟨use', _, hb⟩ := hd.owned _ hmem
      exact hptr.ne hb (.inl hqp) rfl
    · rw [hd.freed.mem]
  refine ⟨hdeparture, ⟨hd.freed.valid, ?_, fun q sq hq => ?_⟩, ?_, ?_⟩
  · subst hL'
    rfl
  · exact Ledger.updated_space hspace (fun q sq hqp hq => (huntouched q sq hqp hq).1)
      (fun _ hnone => by cases hnone) q sq hq
  · refine Ledger.forall_space (P := fun L q sq => L.Recorded q sq) h.recorded hspace (fun q sq hqp _ hrec => ?_)
      fun _ hnone => by cases hnone
    exact hrec.keeps (hdeparture.keeps hqp)
  · exact Ledger.updated_space (P := fun q _ => ∃ Q, Resident t L' q Q) hspace
      (fun q sq hqp hq => (huntouched q sq hqp hq).2) fun _ hnone => by cases hnone

/-- A departure after some allocations were released is a departure. -/
theorem Ledger.Shed.departure {L₁ : Ledger} (h : L.Shed p L₁) (h' : L₁.Departure p L') : L.Departure p L' := by
  obtain ⟨sp₁, hspace⟩ := h.space
  refine ⟨fun b => ?_, h'.owner.trans h.owner, ?_⟩
  · rcases h'.kept b with hkept | ⟨hzero, use, howner⟩
    · rcases h.kept b with hshed | ⟨hzero, i, howner⟩
      · exact .inl (hkept.trans hshed)
      · exact .inr ⟨hkept.trans hzero, _, howner⟩
    · exact .inr ⟨hzero, use, by rw [← h.owner]; exact howner⟩
  · rw [h'.space, hspace, Function.update_idem]

/-- **`process_terminate` is a departure** that leaves the structure of the process behind. It
stops only if the task cannot be freed, the process is in no slot or it is the current one. -/
theorem wp_processTerminate (h : Populated C s L) (hP : Resident s L p P) (hp : L.space p = some sp) :
    wp (processTerminate A p) (fun _ t => ∃ L', L.Departure p L' ∧ Populated C t L' ∧
      t.files.fileDescriptors = s.files.fileDescriptors ∧ C.pages t.ram p ≠ 0)
      (fun _ => (∃ e, taskFree P.task s.taskList = .error e) ∨ basicOSMaxProcesses ≤ P.id ∨
        s.currentProcess = p) s := by
  unfold processTerminate processTerminalAllocations
  rw [wp_bind, wp_bind]
  refine wp.mono (terminalAllocations_spec h hp _) (fun _ s₁ ht => ?_) fun _ h => h.elim
  obtain ⟨hslots, L₁, hshed, h₁⟩ := ht
  rw [wp_pure, if_neg (by decide)]
  obtain ⟨sp₁, hspace⟩ := hshed.space
  have hp₁ : L₁.space p = some sp₁ := by rw [hspace, Function.update_self]
  obtain ⟨P₁, hP₁⟩ := h₁.resident p sp₁ hp₁
  obtain ⟨a, hsame⟩ := hslots.self P hP.process
  obtain rfl : P₁ = {P with allocations := a} := Option.some_inj.mp (hP₁.process.symm.trans hsame)
  refine (processTerminate_dismantles h₁ hp₁ hP₁).mono (fun _ t ht => ?_) fun _ hstopped => ?_
  · obtain ⟨ys, hd⟩ := ht
    obtain ⟨hdeparture, hpopulated⟩ := hd.departure h₁ hP₁
    have hself : p ∉ ys := by
      intro hmem
      obtain ⟨use, huse, hb⟩ := hd.owned p hmem
      exact hb.ne hP₁.self (.inr huse) rfl
    refine ⟨_, hshed.departure hdeparture, hpopulated, hd.fileDescriptors.trans hslots.fileDescriptors, ?_⟩
    rw [hd.freed.kept p hself]
    exact h₁.accounts.live_iff.mp hP₁.self.live
  · rw [hslots.taskList, hslots.currentProcess] at hstopped
    exact hstopped

theorem processTerminate_departure (h : Populated C s L) (hp : L.space p = some sp) :
    Ensures (processTerminate A p) (fun _ t => ∃ L', L.Departure p L' ∧ Populated C t L' ∧
      t.files.fileDescriptors = s.files.fileDescriptors ∧ C.pages t.ram p ≠ 0) s := by
  obtain ⟨P, hP⟩ := h.resident p sp hp
  exact (wp_processTerminate h hP hp).mono (fun _ _ h => h) fun _ _ => trivial

end BasicOS

import BasicOS.Paging.Lifetime
import BasicOS.Process.Allocations
import BasicOS.Process.Ledger

/-! The kernel's state as a ledger.

`Accounts C s L` connects the two levels: the ledger's blocks are those of the allocator,
and for every space of the ledger there is the process structure with its slots, its task,
and in memory a page directory that holds the space's words, in blocks the ledger has
under the process's name. `process_malloc` and `process_free` are then the ledger's
transactions (`processMalloc_spec`, `processFree_spec`). -/
namespace BasicOS
open Lib Program

variable {H : Type} {A : Allocator H} {C : Contract A} {s s' : Kernel H} {L L' : Ledger} {p q i ptr size n : Nat} {sp sq : Space}

/-! ### The relation -/

/-- Process `p` of the kernel is the space `sp` of the ledger: its structure `P`, its task
`T`, and its directory at `D`. -/
structure HeldBy (C : Contract A) (s : Kernel H) (L : Ledger) (p : Nat) (sp : Space) (P : Process) (T : Task)
    (D : DirectoryBlocks) : Prop where
  process : s.process p = some P
  task : s.taskList.tasks P.task = some T
  allocation : P.allocations = sp.allocation
  chunkOf : ChunkOf D T.pageDirectory s.ram.mem
  tables : Tables D sp.entry s.ram.mem
  blocks : ∀ b ∈ D.blocks T.pageDirectory, L.pages b ≠ 0 ∧ L.owner b = some ⟨p, .paging⟩
  nodup : (D.blocks T.pageDirectory).Nodup

def Held (C : Contract A) (s : Kernel H) (L : Ledger) (p : Nat) (sp : Space) : Prop :=
  ∃ P T D, HeldBy C s L p sp P T D

structure Accounts (C : Contract A) (s : Kernel H) (L : Ledger) : Prop where
  valid : C.Valid s.ram.heap
  pages : L.pages = C.live s.ram.heap
  held : ∀ p sp, L.space p = some sp → Held C s L p sp

/-- The word of page `k` in the directory of the process. -/
def Kernel.pageWord (s : Kernel H) (p k : Nat) : Option Nat := do
  let P ← s.process p
  let T ← s.taskList.tasks P.task
  return pagingGet s.ram.mem (read32 s.ram.mem T.pageDirectory) (k * pagingPageSize)

theorem HeldBy.pageWord {P : Process} {T : Task} {D : DirectoryBlocks} (h : HeldBy C s L p sp P T D) {k : Nat}
    (hk : k < 2 ^ 20) : s.pageWord p k = some (sp.entry k) := by
  unfold Kernel.pageWord
  rw [h.process]
  show (do let T ← s.taskList.tasks P.task; _) = _
  rw [h.task]
  show some (pagingGet s.ram.mem (read32 s.ram.mem T.pageDirectory) (k * pagingPageSize)) = _
  rw [h.chunkOf.directory, h.tables.get hk]

theorem Contract.placed_of_pages {heap : H} (hvalid : C.Valid heap) (hpages : L.pages = C.live heap) : L.Placed := by
  constructor
  · intro b hb
    rw [hpages] at hb ⊢
    exact C.placed hvalid hb
  · intro b c hb hc hne
    rw [hpages] at hb hc ⊢
    exact C.apart hvalid hb hc hne

theorem Accounts.placed (h : Accounts C s L) : L.Placed := C.placed_of_pages h.valid h.pages

/-! ### Frames -/

/-- Everything the directory of a process is made of is as it was. -/
theorem HeldBy.frame {P : Process} {T T' : Task} {D : DirectoryBlocks} (h : HeldBy C s L p sp P T D)
    (hproc : s'.process p = s.process p) (htask : s'.taskList.tasks P.task = some T')
    (hdir : T'.pageDirectory = T.pageDirectory) (hkeep : L.Keeps L' p)
    (hmem : ∀ b ∈ D.blocks T.pageDirectory, ∀ a, Extent.Holds ⟨b, pagingPageSize⟩ a → s'.ram.mem a = s.ram.mem a) :
    HeldBy C s' L' p sp P T' D := by
  have hD : ∀ b, b = D.directory ∨ (∃ i, i < 1024 ∧ D.tables i = b) → b ∈ D.blocks T.pageDirectory :=
    fun b hb => DirectoryBlocks.mem_blocks.mpr (.inr hb)
  refine ⟨hproc.trans h.process, htask, h.allocation, ⟨?_, ?_⟩, ?_, fun b hb => ?_, ?_⟩
  · rw [hdir, read32_congr fun a h1 h2 => hmem T.pageDirectory (DirectoryBlocks.mem_blocks.mpr (.inl rfl)) a (by
      rw [Extent.holds_mk]
      simp only [pagingPageSize]
      omega)]
    exact h.chunkOf.directory
  · rw [hdir]
    exact h.chunkOf.outside
  · refine h.tables.congr (fun a ha => hmem _ (hD _ (.inl rfl)) a ha) ?_
    rintro a ⟨i, hi, ha⟩
    exact hmem _ (hD _ (.inr ⟨i, hi, rfl⟩)) a ha
  · rw [hdir] at hb
    obtain ⟨hlive, howner⟩ := h.blocks b hb
    obtain ⟨hpages, howner'⟩ := hkeep b _ hlive howner
    rw [hpages, howner']
    exact ⟨hlive, howner⟩
  · rw [hdir]
    exact h.nodup

/-- A page of a live block is none of another. -/
theorem Ledger.Placed.page_apart (h : L.Placed) {b c a : Nat} (hb : L.pages b ≠ 0) (hc : L.pages c ≠ 0) (hne : b ≠ c)
    (ha : Extent.Holds ⟨b, pagingPageSize⟩ a) : ¬ (c ≤ a ∧ a < c + L.pages c * heapBlockSize) := by
  have hapart := h.apart b c hb hc hne
  have hpages : 1 ≤ L.pages b := Nat.one_le_iff_ne_zero.mpr hb
  rw [Extent.holds_mk] at ha
  simp only [heapBlockSize, pagingPageSize] at *
  omega

/-- A page of a block that is no table of the directory lies outside its tables. -/
theorem HeldBy.outside_tables {P : Process} {T : Task} {D : DirectoryBlocks} (h : HeldBy C s L p sp P T D)
    (hL : L.Placed) {b a : Nat} (hb : L.pages b ≠ 0) (hne : ∀ i, i < 1024 → b ≠ D.tables i)
    (ha : Extent.Holds ⟨b, pagingPageSize⟩ a) : ¬ D.InTables a := by
  rintro ⟨i, hi, hheld⟩
  have hlive := (h.blocks (D.tables i) (DirectoryBlocks.mem_blocks.mpr (.inr (.inr ⟨i, hi, rfl⟩)))).1
  have hpages : 1 ≤ L.pages (D.tables i) := Nat.one_le_iff_ne_zero.mpr hlive
  refine hL.page_apart hb hlive (hne i hi) ha ?_
  rw [Extent.holds_mk] at hheld
  simp only [heapBlockSize, pagingPageSize] at *
  omega

/-- The blocks of another process are none of the directory's. -/
theorem HeldBy.ne_tables {P : Process} {T : Task} {D : DirectoryBlocks} (h : HeldBy C s L p sp P T D) (hqp : q ≠ p)
    {b : Nat} {use : Use} (hb : L.owner b = some ⟨q, use⟩) {i : Nat} (hi : i < 1024) : b ≠ D.tables i := by
  intro heq
  have howner := (h.blocks (D.tables i) (DirectoryBlocks.mem_blocks.mpr (.inr (.inr ⟨i, hi, rfl⟩)))).2
  rw [← heq, hb] at howner
  exact hqp (by simpa using congrArg (Option.map Owner.process) howner)

/-- A byte that transactions of `p` leave alone: below the heap, or in a live block that is no part
of its directory. -/
def Ledger.Steady (L : Ledger) (p a : Nat) : Prop := a < heapBaseAddress ∨
  ∃ b, L.pages b ≠ 0 ∧ L.owner b ≠ some ⟨p, .paging⟩ ∧ b ≤ a ∧ a < b + L.pages b * heapBlockSize

theorem HeldBy.steady_outside {P : Process} {T : Task} {D : DirectoryBlocks} (h : HeldBy C s L p sp P T D)
    (hL : L.Placed) {a : Nat} (ha : L.Steady p a) : ¬ D.InTables a := by
  rintro ⟨i, hi, hheld⟩
  obtain ⟨hlive, howner⟩ := h.blocks (D.tables i) (DirectoryBlocks.mem_blocks.mpr (.inr (.inr ⟨i, hi, rfl⟩)))
  rcases ha with hlow | ⟨b, hb, hother, h1, h2⟩
  · have hbase := (hL.placed _ hlive).2.1
    rw [Extent.holds_mk] at hheld
    omega
  · have hne : D.tables i ≠ b := fun heq => hother (heq ▸ howner)
    exact hL.page_apart hlive hb hne hheld ⟨h1, h2⟩

/-- A byte of another live block is not in a new one. -/
theorem Ledger.Placed.steady_outside (hL : (L.malloc p sp i ptr size n).Placed) (hn : n ≠ 0) (hfree : L.pages ptr = 0)
    {a : Nat} (ha : L.Steady p a) : ¬ (ptr ≤ a ∧ a < ptr + n * heapBlockSize) := by
  have hself : (L.malloc p sp i ptr size n).pages ptr = n := Function.update_self ..
  have hlive : (L.malloc p sp i ptr size n).pages ptr ≠ 0 := by rwa [hself]
  rcases ha with hlow | ⟨b, hb, _, h1, h2⟩
  · have hbase := (hL.placed _ hlive).2.1
    omega
  · have hne : b ≠ ptr := fun heq => hb (heq ▸ hfree)
    have hkept : (L.malloc p sp i ptr size n).pages b = L.pages b := Function.update_of_ne hne ..
    have hapart := hL.apart b ptr (by rwa [hkept]) hlive hne
    rw [hkept, hself] at hapart
    omega

/-! ### Mapping a block to itself -/

theorem pagingAlignAddress_of_le {a : Nat} (h : a + pagingPageSize ≤ 2 ^ 32) :
    a ≤ pagingAlignAddress a ∧ pagingAlignAddress a < a + pagingPageSize ∧
      pagingAlignAddress a % pagingPageSize = 0 := by
  unfold pagingAlignAddress u32
  simp only [pagingPageSize] at *
  split <;> omega

/-- The pages of a block, each mapped to itself. -/
theorem mapEntries_self (entry : Nat → Nat) (rights : Nat) {ptr size : Nat} (hptr : ptr % pagingPageSize = 0)
    (hfit : ptr + size + pagingPageSize ≤ 2 ^ 32) :
    mapEntries entry rights (pagesFrom ptr ptr ((pagingAlignAddress (ptr + size) - ptr) / pagingPageSize)) =
      mapSelf entry rights ptr size := by
  obtain ⟨hle, hlt, halign⟩ := pagingAlignAddress_of_le hfit
  generalize pagingAlignAddress (ptr + size) = e at *
  have hpages := fun m => @mem_pagesFrom ptr ptr ((e - ptr) / pagingPageSize)
    (by simp only [pagingPageSize] at *; omega) (by simp only [pagingPageSize] at *; omega) m
  funext k
  rcases mapEntries_apply entry rights (pagesFrom ptr ptr ((e - ptr) / pagingPageSize)) k with ⟨m, hm, hk, heq⟩ | ⟨hnone, heq⟩
  · obtain ⟨i, hi, rfl⟩ := (hpages m).mp hm
    rw [heq, mapSelf_covered]
    · simp only [pagingPageSize, heapBlockSize] at *
      omega
    · unfold ProcessAllocation.Covers
      simp only [pagingPageSize, heapBlockSize] at *
      omega
  · rw [heq, mapSelf_other]
    rintro ⟨h1, h2⟩
    refine hnone (k * pagingPageSize, k * pagingPageSize) ((hpages _).mpr ⟨k - ptr / pagingPageSize, ?_, ?_⟩) ?_
    · simp only [pagingPageSize, heapBlockSize] at *
      omega
    · simp only [pagingPageSize, heapBlockSize, Prod.mk.injEq] at *
      omega
    · simp only [pagingPageSize]
      omega

/-- The directory after a change of its tables only. -/
theorem HeldBy.remap {P P' : Process} {T : Task} {D : DirectoryBlocks} {sp' : Space} (h : HeldBy C s L p sp P T D)
    (hproc : s'.process p = some P') (htask : s'.taskList.tasks P'.task = some T)
    (hslots : P'.allocations = sp'.allocation) (htables : Tables D sp'.entry s'.ram.mem)
    (hsame : D.SameElsewhere s.ram.mem s'.ram.mem) : HeldBy C s' L p sp' P' T D :=
  ⟨hproc, htask, hslots, h.chunkOf.congr hsame, htables, h.blocks, h.nodup⟩

/-- Mapping the pages of a block to themselves goes through. -/
theorem HeldBy.mapSelf {P : Process} {T : Task} {D : DirectoryBlocks} (h : HeldBy C s L p sp P T D) {ptr size : Nat}
    {rights : Int} (hptr : ptr % pagingPageSize = 0) (hfit : ptr + size + pagingPageSize ≤ 2 ^ 32)
    (hrights : 0 ≤ rights ∧ rights < pagingPageSize) :
    wp (mapInTask P.task ptr ptr (pagingAlignAddress (u32 (ptr + size))) rights) (fun res s' => res = 0 ∧
      ∃ mem, s' = s.withRam {s.ram with mem := mem} ∧
        Tables D (BasicOS.mapSelf sp.entry rights.toNat ptr size) mem ∧ D.SameElsewhere s.ram.mem mem)
      (fun _ => False) s := by
  obtain ⟨hle, _, halign⟩ := pagingAlignAddress_of_le hfit
  unfold mapInTask
  rw [wp_bind, wp_onTasks_loadTask h.task, u32_of_lt (by simp only [pagingPageSize] at hfit; omega)]
  have hptr32 : ptr < 2 ^ 32 := by
    simp only [pagingPageSize] at hfit
    omega
  have hmap : pagingMapTo s.ram.mem T.pageDirectory ptr ptr (pagingAlignAddress (ptr + size)) rights =
      (-einvarg, s.ram.mem) ∨ _ := h.tables.mapTo h.chunkOf hptr32 hptr32 hrights
  rcases hmap with hfail | ⟨_, _, _, _, hres, htables, hsame⟩
  · exfalso
    unfold pagingMapTo at hfail
    rw [if_neg (by omega)] at hfail
    have hrange := h.tables.mapRangeFrom h.chunkOf hptr hptr (by simp only [pagingPageSize] at hfit; omega)
      (by simp only [pagingPageSize] at hfit; omega) hrights ((pagingAlignAddress (ptr + size) - ptr) / pagingPageSize)
    unfold pagingMapRange at hfail
    rw [hfail] at hrange
    exact absurd hrange.1 (show ¬ (-einvarg : Int) = 0 by decide)
  · rw [mapEntries_self sp.entry rights.toNat hptr hfit] at htables
    exact ⟨hres, _, rfl, htables, hsame⟩

/-! ### Allocations -/

/-- Only memory and the slots of process `p` changed. -/
structure SlotsOnly (s s' : Kernel H) (p : Nat) : Prop where
  fileDescriptors : s'.files.fileDescriptors = s.files.fileDescriptors
  taskList : s'.taskList = s.taskList
  elfFile : s'.elfFile = s.elfFile
  processes : s'.processes = s.processes
  currentProcess : s'.currentProcess = s.currentProcess
  others : ∀ q, q ≠ p → s'.process q = s.process q
  self : ∀ P, s.process p = some P → ∃ a, s'.process p = some {P with allocations := a}

theorem SlotsOnly.refl (s : Kernel H) (p : Nat) : SlotsOnly s s p :=
  ⟨rfl, rfl, rfl, rfl, rfl, fun _ _ => rfl, fun P h => ⟨P.allocations, h⟩⟩

theorem SlotsOnly.trans {s'' : Kernel H} (h : SlotsOnly s s' p) (h' : SlotsOnly s' s'' p) : SlotsOnly s s'' p := by
  refine ⟨h'.fileDescriptors.trans h.fileDescriptors, h'.taskList.trans h.taskList, h'.elfFile.trans h.elfFile,
    h'.processes.trans h.processes, h'.currentProcess.trans h.currentProcess,
    fun q hq => (h'.others q hq).trans (h.others q hq), fun P hP => ?_⟩
  obtain ⟨a, ha⟩ := h.self P hP
  obtain ⟨a', ha'⟩ := h'.self _ ha
  exact ⟨a', ha'⟩

theorem slotsOnly_withRam (s : Kernel H) (ram : Ram H) (p : Nat) : SlotsOnly s (s.withRam ram) p :=
  ⟨rfl, rfl, rfl, rfl, rfl, fun _ _ => rfl, fun P h => ⟨P.allocations, h⟩⟩

theorem slotsOnly_putAllocation {P : Process} (h : s.process p = some P) (ram : Ram H) (i : Nat)
    (a : ProcessAllocation) : SlotsOnly s ((s.withRam ram).putProcess p (some (P.putAllocation i a))) p := by
  refine ⟨rfl, rfl, rfl, rfl, rfl, fun q hq => Function.update_of_ne hq .., fun P' hP' => ?_⟩
  obtain rfl : P = P' := Option.some_inj.mp (h.symm.trans hP')
  exact ⟨_, Function.update_self ..⟩

theorem Process.slotOf_some {P : Process} {ptr i : Nat} (h : P.slotOf ptr = some i) :
    i < basicOSMaxAllocationsAllowedPerProcess ∧ (P.allocations i).ptr = ptr := by
  unfold Process.slotOf at h
  exact ⟨List.mem_range.mp (List.mem_of_find?_eq_some h), by simpa using List.find?_some h⟩

theorem Process.slotOf_none {P : Process} {ptr i : Nat} (h : P.slotOf ptr = none)
    (hi : i < basicOSMaxAllocationsAllowedPerProcess) : (P.allocations i).ptr ≠ ptr := by
  unfold Process.slotOf at h
  simpa using List.find?_eq_none.mp h i (List.mem_range.mpr hi)

/-- Every space but one is held as before when memory keeps every block but its tables. -/
theorem Accounts.others (h : Accounts C s L) {P : Process} {T : Task} {D : DirectoryBlocks}
    (hp : HeldBy C s L p sp P T D) (hslots : SlotsOnly s s' p) (hkeep : ∀ q, q ≠ p → L.Keeps L' q)
    (hmem : ∀ b a, L.pages b ≠ 0 → (∀ i, i < 1024 → b ≠ D.tables i) → Extent.Holds ⟨b, pagingPageSize⟩ a →
      s'.ram.mem a = s.ram.mem a) (hqp : q ≠ p) (hq : L.space q = some sq) : Held C s' L' q sq := by
  obtain ⟨P', T', D', h'⟩ := h.held q sq hq
  refine ⟨P', T', D', h'.frame (hslots.others q hqp) (hslots.taskList ▸ h'.task) rfl (hkeep q hqp) ?_⟩
  intro b hb a ha
  obtain ⟨hlive, howner⟩ := h'.blocks b hb
  exact hmem b a hlive (fun i hi => hp.ne_tables hqp howner hi) ha

/-- The accounts after a transaction of process `p`. -/
theorem Accounts.transaction (h : Accounts C s L) {P : Process} {T : Task} {D : DirectoryBlocks} {sp' : Space}
    (hp : HeldBy C s L p sp P T D) (hslots : SlotsOnly s s' p) (hvalid : C.Valid s'.ram.heap)
    (hpages : L'.pages = C.live s'.ram.heap) (hspace : L'.space = Function.update L.space p (some sp'))
    (hkeep : ∀ q, q ≠ p → L.Keeps L' q)
    (hmem : ∀ b a, L.pages b ≠ 0 → (∀ i, i < 1024 → b ≠ D.tables i) → Extent.Holds ⟨b, pagingPageSize⟩ a →
      s'.ram.mem a = s.ram.mem a) (hself : Held C s' L' p sp') : Accounts C s' L' := by
  refine ⟨hvalid, hpages, fun q sq hq => ?_⟩
  rw [hspace] at hq
  by_cases hqp : q = p
  · subst hqp
    rw [Function.update_self] at hq
    cases hq
    exact hself
  · rw [Function.update_of_ne hqp] at hq
    exact h.others hp hslots hkeep hmem hqp hq

/-- No slot is empty. -/
def Space.Full (sp : Space) : Prop := ∀ i, i < basicOSMaxAllocationsAllowedPerProcess → (sp.allocation i).ptr ≠ 0

/-- A request that was not answered. -/
theorem Accounts.unanswered (h : Accounts C s L) {r : Ram H} (hvalid : C.Valid r.heap)
    (hlive : C.live r.heap = C.live s.ram.heap) (hmem : r.mem = s.ram.mem) : Accounts C (s.withRam r) L := by
  refine ⟨hvalid, h.pages.trans hlive.symm, fun q sq hq => ?_⟩
  obtain ⟨P, T, D, hheld⟩ := h.held q sq hq
  refine ⟨P, T, D, hheld.frame rfl hheld.task rfl (fun _ _ _ _ => ⟨rfl, rfl⟩) fun b _ a _ => ?_⟩
  show r.mem a = _
  rw [hmem]

/-- The blocks of the ledger when one more was given out. -/
theorem Accounts.malloc_pages (h : Accounts C s L) {r : Ram H}
    (hlive : C.live r.heap = Function.update (C.live s.ram.heap) ptr n) (p : Nat) (sp : Space) (i size : Nat) :
    (L.malloc p sp i ptr size n).pages = C.live r.heap := by
  show Function.update L.pages ptr n = _
  rw [h.pages, hlive]

/-- A new block is whole pages, and its end is far from the end of the address space. -/
theorem Ledger.Placed.malloc_fits (hL : (L.malloc p sp i ptr size n).Placed) (hn : n ≠ 0)
    (hroom : size ≤ n * heapBlockSize) : ptr % pagingPageSize = 0 ∧ ptr + size + pagingPageSize ≤ 2 ^ 32 := by
  have hself := L.malloc_pages p sp i ptr size n
  obtain ⟨halign, _, hend⟩ := hL.placed ptr (by rwa [hself])
  rw [hself] at hend
  simp only [heapBlockSize, heapBaseAddress, heapMaxHeapSize, pagingPageSize] at *
  omega

/-- The other blocks stay. -/
theorem Ledger.malloc_other (hfree : L.pages ptr = 0) {b : Nat} (hb : L.pages b ≠ 0) :
    (L.malloc p sp i ptr size n).pages b = L.pages b ∧ b ≠ ptr := by
  have hne : b ≠ ptr := fun heq => hb (heq ▸ hfree)
  exact ⟨Function.update_of_ne hne .., hne⟩

/-- The zeros go into the new block, and into no page of another. -/
theorem Ledger.Placed.fill_page (hL : (L.malloc p sp i ptr size n).Placed) (hn : n ≠ 0) (hfree : L.pages ptr = 0)
    (hroom : size ≤ n * heapBlockSize) (m : Memory) {b a : Nat} (hb : L.pages b ≠ 0)
    (ha : Extent.Holds ⟨b, pagingPageSize⟩ a) : fill m ptr size 0 a = m a := by
  have hself := L.malloc_pages p sp i ptr size n
  obtain ⟨hkept, hne⟩ : (L.malloc p sp i ptr size n).pages b = L.pages b ∧ b ≠ ptr := L.malloc_other hfree hb
  refine sameOutside_fill _ _ _ _ a fun hin => hL.page_apart (b := b) (c := ptr) ?_ ?_ hne ha ?_
  · rwa [hkept]
  · rwa [hself]
  · rw [hself]
    rw [Extent.holds_mk] at hin
    omega

theorem Ledger.Placed.fill_steady (hL : (L.malloc p sp i ptr size n).Placed) (hn : n ≠ 0) (hfree : L.pages ptr = 0)
    (hroom : size ≤ n * heapBlockSize) (m : Memory) {a : Nat} (ha : L.Steady p a) : fill m ptr size 0 a = m a := by
  refine sameOutside_fill _ _ _ _ a fun hin => hL.steady_outside hn hfree ha ?_
  rw [Extent.holds_mk] at hin
  omega

/-- **`process_malloc` is an allocation of the ledger**, or changes nothing: then the slots
are full or the allocator answered null. It stops only where the allocator does not answer. -/
theorem processMalloc_spec (h : Accounts C s L) (hp : L.space p = some sp) (size : Nat) :
    wp (processMalloc A p size) (fun ret s' => SlotsOnly s s' p ∧
      (∀ a, L.Steady p a → s'.ram.mem a = s.ram.mem a) ∧
      ((ret = 0 ∧ Accounts C s' L ∧ (sp.Full ∨ A.kmalloc size s.ram.heap = some (0, s'.ram.heap))) ∨
      ∃ i n, i < basicOSMaxAllocationsAllowedPerProcess ∧ (sp.allocation i).ptr = 0 ∧ ret ≠ 0 ∧ L.pages ret = 0 ∧
        n ≠ 0 ∧ size ≤ n * heapBlockSize ∧ A.kmalloc size s.ram.heap = some (ret, s'.ram.heap) ∧
        Accounts C s' (L.malloc p sp i ret size n))) (fun _ => A.kmalloc size s.ram.heap = none) s := by
  obtain ⟨P, T, D, hheld⟩ := h.held p sp hp
  unfold processMalloc
  rw [wp_bind, wp_loadProcess hheld.process]
  unfold processFindFreeAllocationSlot
  cases hslot : P.slotOf 0 with
  | none =>
    refine ⟨SlotsOnly.refl s p, fun _ _ => rfl, .inl ⟨rfl, h, .inl fun i hi => ?_⟩⟩
    rw [← hheld.allocation]
    exact Process.slotOf_none hslot hi
  | some i =>
    obtain ⟨hi, hnull⟩ := Process.slotOf_some hslot
    rw [hheld.allocation] at hnull
    simp only
    rw [if_neg (by omega), wp_bind]
    unfold onRam
    rw [wp_zoom]
    refine wp.mono (wp_kzalloc h.valid size) (fun ptr r hans => ?_) fun _ hnone => hnone
    obtain ⟨hvalid, ⟨rfl, hmem, hlive⟩ | ⟨hne, hfree, hmem, n, hn, hroom, hlive⟩, hanswer⟩ := hans
    · -- no memory: the blocks are the same
      rw [if_pos rfl]
      exact ⟨slotsOnly_withRam s r p, fun a _ => congrFun hmem a, .inl ⟨rfl, h.unanswered hvalid hlive hmem, .inr hanswer⟩⟩
    · rw [if_neg hne]
      have hfreeL : L.pages ptr = 0 := by rwa [h.pages]
      have hpages := h.malloc_pages hlive p sp i size
      have hplaced := C.placed_of_pages hvalid hpages
      obtain ⟨halign, hfit⟩ := hplaced.malloc_fits hn hroom
      have hzero : ∀ b a, L.pages b ≠ 0 → Extent.Holds ⟨b, pagingPageSize⟩ a → r.mem a = s.ram.mem a :=
        fun b a hb ha => (congrFun hmem a).trans (hplaced.fill_page hn hfreeL hroom _ hb ha)
      have hheld₁ : HeldBy C (s.withRam r) (L.malloc p sp i ptr size n) p sp P T D :=
        hheld.frame rfl hheld.task rfl (Ledger.keeps_malloc hfreeL p) fun b hb a ha =>
          hzero b a (hheld.blocks b hb).1 ha
      rw [wp_bind]
      refine wp.mono (hheld₁.mapSelf halign hfit (by decide)) (fun res s₂ hmapped => ?_) fun _ hfalse => hfalse.elim
      obtain ⟨rfl, mem, rfl, htables, hsame⟩ := hmapped
      rw [if_neg (by decide), wp_bind]
      refine (wp_loadProcess (by exact hheld.process)).mpr ?_
      rw [wp_bind]
      refine (wp_storeProcess (by exact hheld.process)).mpr ?_
      have hslots := slotsOnly_putAllocation hheld.process {r with mem := mem} i ⟨ptr, size⟩
      refine ⟨hslots, fun a ha => ?_, .inr ⟨i, n, hi, hnull, hne, hfreeL, hn, hroom, hanswer, ?_⟩⟩
      · exact ((hsame a (hheld.steady_outside h.placed ha)).trans (congrFun hmem a)).trans
          (hplaced.fill_steady hn hfreeL hroom _ ha)
      refine h.transaction hheld hslots hvalid hpages rfl (fun q _ => Ledger.keeps_malloc hfreeL q)
        (fun b a hb hnot ha => ?_) ⟨_, T, D, hheld₁.remap (Function.update_self ..) hheld.task ?_ htables hsame⟩
      · have hb' : (L.malloc p sp i ptr size n).pages b ≠ 0 := by rwa [(L.malloc_other hfreeL hb).1]
        exact (hsame a (hheld₁.outside_tables hplaced hb' hnot ha)).trans (hzero b a hb ha)
      · show Function.update P.allocations i ⟨ptr, size⟩ = _
        rw [hheld.allocation]
        rfl

/-- Whatever a slot records can be mapped. -/
theorem Ledger.Recorded.fits (hrec : L.Recorded p sp) (hL : L.Placed) (hi : i < basicOSMaxAllocationsAllowedPerProcess) :
    (sp.allocation i).ptr % pagingPageSize = 0 ∧
      (sp.allocation i).ptr + (sp.allocation i).size + pagingPageSize ≤ 2 ^ 32 := by
  by_cases hnull : (sp.allocation i).ptr = 0
  · rw [hrec.empty i hi hnull, hnull]
    decide
  · obtain ⟨_, hlive, hroom⟩ := hrec.owned i ⟨hi, hnull⟩
    obtain ⟨halign, _, hend⟩ := hL.placed _ hlive
    simp only [heapBlockSize, heapBaseAddress, heapMaxHeapSize, pagingPageSize] at *
    omega

/-- What `process_free` leaves of slot `i` of process `p`, with the tables in `mem`. -/
def Kernel.freeSlot (s : Kernel H) (A : Allocator H) (p : Nat) (P : Process) (i : Nat) (mem : Memory) : Kernel H :=
  (s.withRam (released A (P.allocations i).ptr {s.ram with mem := mem})).putProcess p (some (P.putAllocation i ⟨0, 0⟩))

section Free

variable {P : Process} {T : Task} {D : DirectoryBlocks} {mem : Memory}

/-- The release of an empty slot changes nothing that is accounted for. -/
theorem Accounts.free_empty (h : Accounts C s L) (hp : L.space p = some sp) (hheld : HeldBy C s L p sp P T D)
    (hnull : (sp.allocation i).ptr = 0) (hsize : (sp.allocation i).size = 0)
    (htables : Tables D (BasicOS.mapSelf sp.entry 0 (sp.allocation i).ptr (sp.allocation i).size) mem)
    (hsame : D.SameElsewhere s.ram.mem mem) : Accounts C (s.freeSlot A p P i mem) L := by
  have hptr : (P.allocations i).ptr = 0 := by rwa [hheld.allocation]
  unfold Kernel.freeSlot
  rw [hptr]
  have hfreed := freed_kfree_null (C := C) (r := {s.ram with mem := mem}) h.valid
  -- it maps no page
  have hentry : BasicOS.mapSelf sp.entry 0 (sp.allocation i).ptr (sp.allocation i).size = sp.entry := by
    funext k
    refine mapSelf_other fun hcov => ?_
    unfold ProcessAllocation.Covers at hcov
    simp only [hsize] at hcov
    omega
  rw [hentry] at htables
  have hpages : L.pages = C.live (A.kfree 0 s.ram.heap) := by
    rw [(C.free_null h.valid).2]
    exact h.pages
  have hcell : sp.allocation i = ⟨0, 0⟩ := by
    rw [show sp.allocation i = ⟨(sp.allocation i).ptr, (sp.allocation i).size⟩ from rfl, hnull, hsize]
  refine h.transaction hheld (slotsOnly_putAllocation hheld.process _ i ⟨0, 0⟩) hfreed.valid hpages
    (show L.space = Function.update L.space p (some sp) from ?_) (fun q _ b use _ _ => ⟨rfl, rfl⟩)
    (fun b a hb hnot ha => hsame a (hheld.outside_tables h.placed hb hnot ha))
    ⟨_, T, D, hheld.remap (Function.update_self ..) hheld.task ?_ htables hsame⟩
  · rw [← hp, Function.update_eq_self]
  · show Function.update P.allocations i ⟨0, 0⟩ = _
    rw [hheld.allocation, ← hcell, Function.update_eq_self]

/-- The release of a block that a slot records. -/
theorem Accounts.free_held (h : Accounts C s L) (hheld : HeldBy C s L p sp P T D) (hrec : L.Recorded p sp)
    (hholds : sp.Holds i)
    (htables : Tables D (BasicOS.mapSelf sp.entry 0 (sp.allocation i).ptr (sp.allocation i).size) mem)
    (hsame : D.SameElsewhere s.ram.mem mem) : Accounts C (s.freeSlot A p P i mem) (L.free p sp i) := by
  obtain ⟨howner, hlive, _⟩ := hrec.owned i hholds
  have hptr : (P.allocations i).ptr = (sp.allocation i).ptr := by rw [hheld.allocation]
  unfold Kernel.freeSlot
  rw [hptr]
  have hlive' : C.live s.ram.heap (sp.allocation i).ptr ≠ 0 := by rwa [← h.pages]
  obtain ⟨hvalid, hupdate⟩ := C.free h.valid hlive'
  have hpages : (L.free p sp i).pages = C.live (A.kfree (sp.allocation i).ptr s.ram.heap) := by
    rw [hupdate, ← h.pages]
    rfl
  refine h.transaction hheld (slotsOnly_putAllocation hheld.process _ i ⟨0, 0⟩) hvalid hpages rfl
    (fun q hq => Ledger.keeps_free hrec hholds hq)
    (fun b a hb hnot ha => hsame a (hheld.outside_tables h.placed hb hnot ha))
    ⟨P.putAllocation i ⟨0, 0⟩, T, D, ⟨Function.update_self .., hheld.task, ?_, hheld.chunkOf.congr hsame, htables,
      fun b hb => ?_, hheld.nodup⟩⟩
  · show Function.update P.allocations i ⟨0, 0⟩ = _
    rw [hheld.allocation]
    rfl
  · obtain ⟨hb, hpaging⟩ := hheld.blocks b hb
    refine ⟨?_, hpaging⟩
    -- the block is no part of the directory
    have hne : b ≠ (sp.allocation i).ptr := fun heq => by
      rw [heq, howner] at hpaging
      cases hpaging
    show Function.update L.pages (sp.allocation i).ptr 0 b ≠ 0
    rwa [Function.update_of_ne hne]

end Free

/-- **`process_free` is a release of the ledger**, or of a pointer that is not recorded, which
changes nothing unless it is null. -/
theorem processFree_spec (h : Accounts C s L) (hp : L.space p = some sp) (hrec : L.Recorded p sp) (ptr : Nat) :
    wp (processFree A p ptr) (fun _ s' => SlotsOnly s s' p ∧
      ((Accounts C s' L ∧ (∀ i, sp.Holds i → (sp.allocation i).ptr ≠ ptr) ∧ (ptr ≠ 0 → s' = s)) ∨
      ∃ i, sp.Holds i ∧ (sp.allocation i).ptr = ptr ∧ Accounts C s' (L.free p sp i))) (fun _ => False) s := by
  obtain ⟨P, T, D, hheld⟩ := h.held p sp hp
  unfold processFree
  rw [wp_bind, wp_loadProcess hheld.process]
  cases hslot : P.slotOf ptr with
  | none =>
    refine ⟨SlotsOnly.refl s p, .inl ⟨h, fun i hi => ?_, fun _ => rfl⟩⟩
    rw [← hheld.allocation]
    exact Process.slotOf_none hslot hi.slot
  | some i =>
    obtain ⟨hi, hptr⟩ := Process.slotOf_some hslot
    obtain ⟨halign, hfit⟩ := hrec.fits h.placed hi
    have hcell : P.allocations i = sp.allocation i := by rw [hheld.allocation]
    simp only [hcell]
    rw [hcell] at hptr
    rw [wp_bind]
    refine wp.mono (hheld.mapSelf halign hfit (by decide)) (fun res s₁ hmapped => ?_) fun _ hfalse => hfalse
    obtain ⟨rfl, mem, rfl, htables, hsame⟩ := hmapped
    rw [wp_when]
    refine ⟨fun _ => ?_, fun hneg => absurd (Int.le_refl 0) hneg⟩
    rw [wp_bind]
    refine (wp_loadProcess (by exact hheld.process)).mpr ?_
    rw [wp_bind]
    refine (wp_storeProcess (by exact hheld.process)).mpr ?_
    refine ⟨slotsOnly_putAllocation hheld.process _ i ⟨0, 0⟩, ?_⟩
    by_cases hnull : ptr = 0
    · -- the first empty slot
      have haccounts := h.free_empty hp hheld (hptr.trans hnull) (hrec.empty i hi (hptr.trans hnull)) htables hsame
      unfold Kernel.freeSlot at haccounts
      rw [hcell, hptr] at haccounts
      exact .inl ⟨haccounts, fun j hj => hnull ▸ hj.used, fun hne => absurd hnull hne⟩
    · have hholds : sp.Holds i := ⟨hi, by rwa [hptr]⟩
      have haccounts := h.free_held hheld hrec hholds htables hsame
      unfold Kernel.freeSlot at haccounts
      rw [hcell, hptr] at haccounts
      exact .inr ⟨i, hholds, hptr, haccounts⟩

end BasicOS

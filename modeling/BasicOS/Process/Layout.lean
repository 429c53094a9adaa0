import BasicOS.Process.Arrival

/-! What mapping a process does to its directory.

Every call of `process_map_memory` is a list of ranges mapped one after the other: the
segments of an ELF image, or the flat binary, and then the stack. Only the tables of the
process's own directory change in memory. -/
namespace BasicOS
open Lib Program

variable {H : Type} {A : Allocator H} {C : Contract A} {D : DirectoryBlocks} {chunk : Nat} {entry : Nat → Nat} {mem : Memory}

/-! ### Segments -/

def segmentRights (phdr : Elf32Phdr) : Nat := if phdr.pFlags &&& pfW ≠ 0 then 7 else 5

/-- The pages `process_map_elf` maps for a program header. -/
def segmentPages (elfMemory : Nat) (phdr : Elf32Phdr) : List (Nat × Nat) :=
  let physicalAddr := elfPhdrComputePhysicalAddress elfMemory phdr
  pagesFrom (pagingAlignToLowerPageAddr phdr.pVaddr) (pagingAlignToLowerPageAddr physicalAddr)
    ((pagingAlignAddress (u32 (physicalAddr + phdr.pMemsz)) - pagingAlignToLowerPageAddr physicalAddr) / pagingPageSize)

def mapSegments (elfMemory : Nat) (entry : Nat → Nat) (phdrs : List Elf32Phdr) : Nat → Nat :=
  phdrs.foldl (fun e phdr => mapEntries e (segmentRights phdr) (segmentPages elfMemory phdr)) entry

/-- The tables do not reach into the program headers. -/
def StableHeaders (D : DirectoryBlocks) (elfMemory : Nat) (mem : Memory) : Prop :=
  ∀ m, D.SameElsewhere mem m → ePhnum m elfMemory = ePhnum mem elfMemory ∧
    elfPheader m elfMemory = elfPheader mem elfMemory ∧
    ∀ i, i < ePhnum mem elfMemory → elfProgramHeader m elfMemory i = elfProgramHeader mem elfMemory i

/-- The program headers from `i` on. -/
def headersFrom (mem : Memory) (elfMemory i : Nat) : List Elf32Phdr :=
  (List.range' i (ePhnum mem elfMemory - i)).map (elfProgramHeader mem elfMemory)

theorem ePhnum_lt (mem : Memory) (elfMemory : Nat) : ePhnum mem elfMemory < 2 ^ 16 := by
  have h0 := (mem (elfMemory + 44)).toNat_lt
  have h1 := (mem (elfMemory + 44 + 1)).toNat_lt
  unfold ePhnum read16
  omega

theorem pagingAlignToLowerPageAddr_lt {a : Nat} (h : a < 2 ^ 32) : pagingAlignToLowerPageAddr a < 2 ^ 32 := by
  unfold pagingAlignToLowerPageAddr
  omega

theorem SameElsewhere.trans {m m' : Memory} (h : D.SameElsewhere mem m) (h' : D.SameElsewhere m m') :
    D.SameElsewhere mem m' := fun b hb => (h' b hb).trans (h b hb)

theorem StableHeaders.congr {elfMemory : Nat} {m : Memory} (h : StableHeaders D elfMemory mem)
    (hsame : D.SameElsewhere mem m) : StableHeaders D elfMemory m := by
  intro m' hm'
  obtain ⟨hnum, hphdrs, hheader⟩ := h m hsame
  obtain ⟨hnum', hphdrs', hheader'⟩ := h m' (SameElsewhere.trans hsame hm')
  refine ⟨hnum'.trans hnum.symm, hphdrs'.trans hphdrs.symm, fun i hi => ?_⟩
  rw [hnum] at hi
  rw [hheader i hi, hheader' i hi]

theorem headersFrom_of_le {elfMemory i : Nat} (h : ePhnum mem elfMemory ≤ i) : headersFrom mem elfMemory i = [] := by
  unfold headersFrom
  rw [Nat.sub_eq_zero_of_le h]
  rfl

theorem headersFrom_of_lt {elfMemory i : Nat} (h : i < ePhnum mem elfMemory) :
    headersFrom mem elfMemory i = elfProgramHeader mem elfMemory i :: headersFrom mem elfMemory (i + 1) := by
  unfold headersFrom
  rw [show ePhnum mem elfMemory - i = ePhnum mem elfMemory - (i + 1) + 1 by omega, List.range'_succ, List.map_cons]

theorem StableHeaders.headersFrom {elfMemory : Nat} {m : Memory} (h : StableHeaders D elfMemory mem)
    (hsame : D.SameElsewhere mem m) (i : Nat) : headersFrom m elfMemory i = BasicOS.headersFrom mem elfMemory i := by
  obtain ⟨hnum, _, hheader⟩ := h m hsame
  unfold BasicOS.headersFrom
  rw [hnum]
  refine List.map_congr_left fun j hj => hheader j ?_
  have := List.mem_range'_1.mp hj
  omega

/-- The loop of `process_map_elf` maps segments one after the other; if it goes through, those
of the headers that are left. -/
theorem mapElfFrom_spec {elfMemory phdrs : Nat} (h : Tables D entry mem) (hchunk : ChunkOf D chunk mem)
    (n i : Nat) (hn : 0xFFFF ≤ n + i) (res : Int) :
    ∃ mapped, Tables D (mapSegments elfMemory entry mapped) (mapElfFrom chunk elfMemory phdrs n i mem res).2 ∧
      D.SameElsewhere mem (mapElfFrom chunk elfMemory phdrs n i mem res).2 ∧
      (StableHeaders D elfMemory mem → elfPheader mem elfMemory = phdrs →
        0 ≤ (mapElfFrom chunk elfMemory phdrs n i mem res).1 → mapped = headersFrom mem elfMemory i) := by
  induction n generalizing i mem entry res with
  | zero =>
    have := ePhnum_lt mem elfMemory
    exact ⟨[], h, fun _ _ => rfl, fun _ _ _ => (headersFrom_of_le (by omega)).symm⟩
  | succ n ih =>
    unfold mapElfFrom
    split
    · rename_i hi
      have hrights : ∀ phdr : Elf32Phdr, 0 ≤ (if phdr.pFlags &&& pfW ≠ 0 then flagsWritable else flagsReadOnly) ∧
          (if phdr.pFlags &&& pfW ≠ 0 then flagsWritable else flagsReadOnly) < pagingPageSize ∧
          (if phdr.pFlags &&& pfW ≠ 0 then flagsWritable else flagsReadOnly).toNat = segmentRights phdr := by
        intro phdr
        unfold segmentRights
        split <;> decide
      generalize hphdr : phdrIn mem phdrs i = phdr
      obtain ⟨hflags, hlt, hnat⟩ := hrights phdr
      simp only
      generalize (if phdr.pFlags &&& pfW ≠ 0 then flagsWritable else flagsReadOnly) = flags at hflags hlt hnat
      have hv : phdr.pVaddr < 2 ^ 32 := hphdr ▸ read32_lt _ _
      have hmap := @Tables.mapTo D chunk entry mem h hchunk _ _
        (pagingAlignAddress (u32 (elfPhdrComputePhysicalAddress elfMemory phdr + phdr.pMemsz))) flags
        (pagingAlignToLowerPageAddr_lt hv) (pagingAlignToLowerPageAddr_lt (u32_lt (elfMemory + phdr.pOffset))) ⟨hflags, hlt⟩
      have hcall : pagingAlignToLowerPageAddr (u32 (elfMemory + phdr.pOffset)) =
        pagingAlignToLowerPageAddr (elfPhdrComputePhysicalAddress elfMemory phdr) := rfl
      rw [hcall] at hmap
      generalize pagingMapTo mem chunk _ _ _ flags = call at hmap ⊢
      obtain ⟨res', mem'⟩ := call
      rcases hmap with hfail | ⟨_, _, _, _, hres, htables, hsame⟩
      · obtain ⟨rfl, rfl⟩ := Prod.mk.inj hfail
        exact ⟨[], h, fun _ _ => rfl, fun _ _ hneg => absurd hneg (by simp [einvarg])⟩
      · simp only at hres htables hsame
        subst hres
        obtain ⟨mapped, htables', hsame', hleft⟩ := ih htables (hchunk.congr hsame) (i + 1) (by omega) 0
        simp only [Int.lt_irrefl, if_false]
        refine ⟨phdr :: mapped, ?_, SameElsewhere.trans hsame hsame', fun hstable hphdrs hok => ?_⟩
        · rw [hnat] at htables'
          exact htables'
        · have hthis : elfProgramHeader mem elfMemory i = phdr := by
            rw [← hphdr, ← hphdrs]
            rfl
          have hphdrs' := (hstable _ hsame).2.1.trans hphdrs
          rw [headersFrom_of_lt hi, hthis, hleft (hstable.congr hsame) hphdrs' hok, hstable.headersFrom hsame]
    · rename_i hi
      exact ⟨[], h, fun _ _ => rfl, fun _ _ _ => (headersFrom_of_le (Nat.le_of_not_lt hi)).symm⟩

/-- The segment does not end, rounded, before it starts. -/
def Elf32Phdr.Ends (elfMemory : Nat) (phdr : Elf32Phdr) : Prop :=
  pagingAlignToLowerPageAddr (elfPhdrComputePhysicalAddress elfMemory phdr) ≤
    pagingAlignAddress (u32 (elfPhdrComputePhysicalAddress elfMemory phdr + phdr.pMemsz))

theorem pagingAlignAddress_aligned (a : Nat) : pagingAlignAddress a % pagingPageSize = 0 := by
  unfold pagingAlignAddress u32
  simp only [pagingPageSize]
  split <;> omega

theorem pagingAlignToLowerPageAddr_aligned (a : Nat) : pagingAlignToLowerPageAddr a % pagingPageSize = 0 := by
  unfold pagingAlignToLowerPageAddr
  simp only [pagingPageSize]
  omega

/-- The loop goes through if every segment that is left ends behind its start. -/
theorem mapElfFrom_returns {elfMemory phdrs : Nat} (h : Tables D entry mem) (hchunk : ChunkOf D chunk mem)
    (hstable : StableHeaders D elfMemory mem) (hphdrs : elfPheader mem elfMemory = phdrs) (n i : Nat)
    (hends : ∀ phdr ∈ headersFrom mem elfMemory i, phdr.Ends elfMemory) :
    (mapElfFrom chunk elfMemory phdrs n i mem 0).1 = 0 := by
  induction n generalizing i mem entry with
  | zero => rfl
  | succ n ih =>
    unfold mapElfFrom
    split
    · rename_i hi
      rw [headersFrom_of_lt hi] at hends
      obtain ⟨hend, hleft⟩ := List.forall_mem_cons.mp hends
      have hthis : elfProgramHeader mem elfMemory i = phdrIn mem phdrs i := by
        rw [← hphdrs]
        rfl
      rw [hthis] at hend
      have hv : (phdrIn mem phdrs i).pVaddr < 2 ^ 32 := read32_lt _ _
      generalize phdrIn mem phdrs i = phdr at hend hv
      simp only
      have hflags : 0 ≤ (if phdr.pFlags &&& pfW ≠ 0 then flagsWritable else flagsReadOnly) ∧
          (if phdr.pFlags &&& pfW ≠ 0 then flagsWritable else flagsReadOnly) < pagingPageSize := by
        split <;> decide
      generalize (if phdr.pFlags &&& pfW ≠ 0 then flagsWritable else flagsReadOnly) = flags at hflags
      obtain ⟨hres, htables, hsame⟩ := h.mapTo_aligned hchunk (pagingAlignToLowerPageAddr_aligned phdr.pVaddr)
        (pagingAlignToLowerPageAddr_aligned _) (pagingAlignAddress_aligned _) hend
        (pagingAlignToLowerPageAddr_lt hv) (pagingAlignToLowerPageAddr_lt (u32_lt (elfMemory + phdr.pOffset))) hflags
      rw [hres, if_neg (lt_irrefl _)]
      apply ih htables (hchunk.congr hsame) (hstable.congr hsame) ((hstable _ hsame).2.1.trans hphdrs)
      rw [hstable.headersFrom hsame]
      exact hleft
    · rfl

/-! ### The image and the stack -/

/-- The pages of the user stack. -/
def stackEntries (entry : Nat → Nat) (stack : Nat) : Nat → Nat :=
  mapEntries entry rightsWritable (pagesFrom bkeTaskProgramVirtualStackAddrEnd stack
    (bkeTaskUserStackSize / pagingPageSize))

/-- The pages of a flat binary. -/
def flatEntries (entry : Nat → Nat) (ptr size : Nat) : Nat → Nat :=
  mapEntries entry rightsWritable
    (pagesFrom bkeTaskProgramVirtualAddr ptr ((pagingAlignAddress (u32 (ptr + size)) - ptr) / pagingPageSize))

/-- The words of a process whose image and stack are mapped. -/
inductive Process.Layout (D : DirectoryBlocks) (s : Kernel H) (P : Process) : (Nat → Nat) → Prop where
  | elf {F phdrs} (filetype : P.filetype = processFormatElf) (file : s.elfFile P.ptr = some F)
      (headers : StableHeaders D F.elfMemory s.ram.mem → phdrs = headersFrom s.ram.mem F.elfMemory 0) :
      P.Layout D s (stackEntries (mapSegments F.elfMemory newEntry phdrs) P.stack)
  | flat (filetype : P.filetype = processFormatFbin) : P.Layout D s
    (stackEntries (flatEntries newEntry P.ptr P.size) P.stack)

section Memory

variable {s : Kernel H} {P : Process}

theorem loadTask_chunk {l : TaskList} {task : Nat} (h : l.directory task = some chunk) :
    ∃ T, l.tasks task = some T ∧ T.pageDirectory = chunk := by
  unfold TaskList.directory at h
  obtain ⟨T, hT, hdir⟩ := Option.map_eq_some_iff.mp h
  exact ⟨T, hT, hdir⟩

/-- Mapping an aligned range in the directory of a task goes through. -/
theorem mapInTask_spec {task vAddr pAddr pAddrEnd : Nat} {flags : Int} (htask : s.taskList.directory task = some chunk)
    (h : Tables D entry s.ram.mem) (hchunk : ChunkOf D chunk s.ram.mem) (hv : vAddr % pagingPageSize = 0)
    (hp : pAddr % pagingPageSize = 0) (hend : pAddrEnd % pagingPageSize = 0) (hle : pAddr ≤ pAddrEnd)
    (hv32 : vAddr < 2 ^ 32) (hp32 : pAddr < 2 ^ 32) (hflags : 0 ≤ flags ∧ flags < pagingPageSize) :
    Ensures (mapInTask task vAddr pAddr pAddrEnd flags) (fun res t => res = 0 ∧
      ∃ mem, t = s.withRam {s.ram with mem := mem} ∧ D.SameElsewhere s.ram.mem mem ∧
        Tables D (mapEntries entry flags.toNat (pagesFrom vAddr pAddr
          ((pAddrEnd - pAddr) / pagingPageSize))) mem) s := by
  obtain ⟨T, hT, rfl⟩ := loadTask_chunk htask
  unfold mapInTask
  rw [Ensures, wp_bind, wp_onTasks_loadTask hT]
  obtain ⟨hres, htables, hsame⟩ := h.mapTo_aligned hchunk hv hp hend hle hv32 hp32 hflags
  exact ⟨hres, _, rfl, hsame, htables⟩

/-- A block of the heap, with its end rounded to a page. -/
theorem block_range {r : Ram H} {ptr size : Nat} (hvalid : C.Valid r.heap) (hlive : C.pages r ptr ≠ 0)
    (hroom : size ≤ C.pages r ptr * heapBlockSize) : ptr % pagingPageSize = 0 ∧ ptr < 2 ^ 32 ∧
    u32 (ptr + size) = ptr + size ∧
      ptr ≤ pagingAlignAddress (ptr + size) ∧ pagingAlignAddress (ptr + size) % pagingPageSize = 0 ∧
      pagingAlignAddress (ptr + size) ≤ ptr + C.pages r ptr * heapBlockSize := by
  obtain ⟨halign, hbase, hend⟩ := C.placed hvalid hlive
  change ptr + C.pages r ptr * heapBlockSize ≤ _ at hend
  have hfit : ptr + size + pagingPageSize ≤ 2 ^ 32 := by
    simp only [heapBaseAddress, heapBlockSize, heapMaxHeapSize, pagingPageSize] at *
    omega
  obtain ⟨hle, hlt, halign'⟩ := pagingAlignAddress_of_le hfit
  refine ⟨halign, ?_, u32_of_lt ?_, ?_, halign', ?_⟩
  · simp only [pagingPageSize] at hfit
    omega
  · simp only [pagingPageSize] at hfit
    omega
  · omega
  · simp only [heapBlockSize, pagingPageSize] at *
    omega

/-- A process with its image, its stack and a fresh directory. -/
structure Unmapped (C : Contract A) (vol : Volume) (filename : List UInt8) (D : DirectoryBlocks) (chunk : Nat)
    (s : Kernel H) (P : Process) (other : Nat) : Prop where
  valid : C.Valid s.ram.heap
  directory : s.taskList.directory P.task = some chunk
  chunkOf : ChunkOf D chunk s.ram.mem
  tables : Tables D newEntry s.ram.mem
  image : P.ImageOf C vol filename s other
  stack : C.pages s.ram P.stack ≠ 0
  room : bkeTaskUserStackSize ≤ C.pages s.ram P.stack * heapBlockSize

/-- The stack is mapped behind whatever was mapped before. -/
theorem mapStack_spec {task stack : Nat} (htask : s.taskList.directory task = some chunk) (h : Tables D entry s.ram.mem)
    (hchunk : ChunkOf D chunk s.ram.mem) (hvalid : C.Valid s.ram.heap) (hstack : C.pages s.ram stack ≠ 0)
    (hroom : bkeTaskUserStackSize ≤ C.pages s.ram stack * heapBlockSize) :
    Ensures (mapInTask task bkeTaskProgramVirtualStackAddrEnd stack
      (pagingAlignAddress (u32 (stack + bkeTaskUserStackSize))) flagsWritable) (fun _ t =>
      ∃ mem, t = s.withRam {s.ram with mem := mem} ∧ D.SameElsewhere s.ram.mem mem ∧
        Tables D (stackEntries entry stack) mem) s := by
  obtain ⟨halign, hlt, hsum, hle, _, _⟩ := block_range hvalid hstack hroom
  have hend : pagingAlignAddress (stack + bkeTaskUserStackSize) = stack + bkeTaskUserStackSize := by
    refine if_neg (not_not.mpr ?_)
    simp only [bkeTaskUserStackSize, pagingPageSize] at *
    omega
  rw [hend] at hle
  rw [hsum, hend]
  refine (mapInTask_spec htask h hchunk (by decide) halign
    (by simp only [bkeTaskUserStackSize, pagingPageSize] at *; omega) hle (by decide) hlt
    (by decide)).mono fun res t ht => ?_
  obtain ⟨_, mem, ht, hsame, htables⟩ := ht
  rw [Nat.add_sub_cancel_left] at htables
  exact ⟨mem, ht, hsame, htables⟩

/-- The image and the stack of a process are mapped, or the mapping fails; only its tables change. -/
theorem processMapMemory_spec {vol : Volume} {filename : List UInt8} {process other : Nat}
    (hP : s.process process = some P) (h : Unmapped C vol filename D chunk s P other) :
    Ensures (processMapMemory process) (fun res t => ∃ mem entry, t = s.withRam {s.ram with mem := mem} ∧
      D.SameElsewhere s.ram.mem mem ∧ Tables D entry mem ∧ (res < 0 ∨ res = 0 ∧ P.Layout D s entry)) s := by
  unfold processMapMemory
  rw [Ensures, wp_bind, wp_loadProcess hP]
  obtain ⟨T, hT, hdir⟩ := loadTask_chunk h.directory
  cases h.image with
  | @elf F _ hfiletype hF _ _ =>
    obtain ⟨phdrs, htables, hsame, hheaders⟩ :=
      @mapElfFrom_spec D chunk newEntry s.ram.mem F.elfMemory (elfPheader s.ram.mem F.elfMemory) h.tables h.chunkOf 0xFFFF
        0 (Nat.le_refl _) 0
    have hnonpos := mapElf_nonpos chunk F.elfMemory s.ram.mem
    unfold mapElf at hnonpos
    rw [if_pos hfiletype]
    unfold processMapElf onRam mapElf
    rw [wp_bind, wp_bind, wp_loadProcess hP, wp_bind, wp_loadElfFile hF, wp_bind, wp_onTasks_loadTask hT, hdir, wp_zoom]
    refine (wp_ok rfl).mpr ?_
    dsimp only
    split
    · exact ⟨_, _, rfl, hsame, htables, .inl ‹_›⟩
    · rename_i hok
      have hres : (mapElfFrom chunk F.elfMemory (elfPheader s.ram.mem F.elfMemory) 0xFFFF 0 s.ram.mem 0).1 = 0 :=
        Int.le_antisymm hnonpos (not_lt.mp hok)
      rw [wp_bind]
      refine (wp_loadProcess (by exact hP)).mpr ?_
      refine wp.bind (mapStack_spec (s := s.withRam ⟨s.ram.heap, _⟩) h.directory htables (h.chunkOf.congr hsame) h.valid
        h.stack h.room) fun _ t ht => ?_
      obtain ⟨mem, rfl, hsame', htables'⟩ := ht
      exact ⟨mem, _, rfl, SameElsewhere.trans hsame hsame', htables',
        .inr ⟨hres, .elf hfiletype hF fun hstable => hheaders hstable rfl (Int.le_of_eq hres.symm)⟩⟩
  | flat hfiletype hsize hholds =>
    obtain ⟨halign, hlt, hsum, hle, hend, _⟩ := block_range h.valid hholds.live hholds.room
    rw [← hsize] at hsum hle hend
    rw [if_neg (by rw [hfiletype]; decide), if_pos hfiletype]
    unfold processMapBinary
    rw [wp_bind, wp_bind, wp_loadProcess hP, wp_bind, hsum]
    refine wp.mono (mapInTask_spec h.directory h.tables h.chunkOf (by decide) halign hend hle (by decide) hlt
      (by decide))
      (fun _ t ht => ?_) fun _ h => h
    obtain ⟨_, mem, rfl, hsame, htables⟩ := ht
    rw [wp_pure]
    dsimp only
    rw [if_neg (by decide), wp_bind]
    refine (wp_loadProcess (by exact hP)).mpr ?_
    refine wp.bind (mapStack_spec (s := s.withRam ⟨s.ram.heap, mem⟩) h.directory htables (h.chunkOf.congr hsame) h.valid
      h.stack h.room) fun _ t ht => ?_
    obtain ⟨mem', rfl, hsame', htables'⟩ := ht
    refine ⟨mem', _, rfl, SameElsewhere.trans hsame hsame', htables', .inr ⟨rfl, ?_⟩⟩
    have hflat := Process.Layout.flat (D := D) (s := s) hfiletype
    unfold flatEntries at hflat
    rw [hsum] at hflat
    exact hflat

/-- The mapping of an ELF process goes through if every segment ends behind its start. -/
theorem processMapMemory_returns {process : Nat} {F : ElfFile} (hP : s.process process = some P)
    (hdirectory : s.taskList.directory P.task = some chunk) (hchunk : ChunkOf D chunk s.ram.mem)
    (htables : Tables D entry s.ram.mem) (hfiletype : P.filetype = processFormatElf) (hF : s.elfFile P.ptr = some F)
    (hstable : StableHeaders D F.elfMemory s.ram.mem)
    (hends : ∀ phdr ∈ headersFrom s.ram.mem F.elfMemory 0, phdr.Ends F.elfMemory) :
    wp (processMapMemory process) (fun res _ => res = 0) (fun _ => False) s := by
  obtain ⟨T, hT, rfl⟩ := loadTask_chunk hdirectory
  have hres := mapElfFrom_returns htables hchunk hstable rfl 0xFFFF 0 hends
  unfold processMapMemory processMapElf onRam mapElf
  rw [wp_bind, wp_loadProcess hP, if_pos hfiletype, wp_bind, wp_bind, wp_loadProcess hP, wp_bind, wp_loadElfFile hF,
    wp_bind, wp_onTasks_loadTask hT, wp_zoom]
  refine (wp_ok rfl).mpr ?_
  dsimp only
  rw [hres, if_neg (lt_irrefl _), wp_bind]
  refine (wp_loadProcess (by exact hP)).mpr ?_
  unfold mapInTask onRam
  rw [wp_bind, wp_bind]
  refine (wp_onTasks_loadTask (by exact hT)).mpr ?_
  rw [wp_zoom]
  exact rfl

end Memory

end BasicOS

import BasicOS.Process.Format
import BasicOS.Process.KernelPages

/-! What a process can write.

The pages of a process that user mode can write come from three places: its stack, what it has
allocated, and its program. Stack and allocations are blocks the kernel made for it, and a flat
binary is mapped as long as it is. The segments of an ELF file are mapped from where `p_offset` says, as
far as `p_memsz` says, and no one compares either with the size of the file. So the pages a process
can write are in its own blocks as long as the files that are loaded keep their writable segments
inside (`writeIsolated_of_run`). -/
namespace BasicOS
open Lib Program

variable {H : Type} {A : Allocator H} {C : Contract A} {L L' : Ledger} {p q : Nat} {sp : Space} {P : Process}

/-! ### Files -/

/-- The bytes of the pages that hold a file of this length. -/
def filePages (length : Nat) : Nat := (length + (heapBlockSize - 1)) / heapBlockSize * heapBlockSize

/-- The program headers are in the file, and what they make writable is in its pages. -/
structure WritesInside (file : List UInt8) : Prop where
  headers : HeadersInFile file
  segments : ∀ phdr ∈ fileHeaders file, phdr.pFlags &&& pfW ≠ 0 → phdr.pOffset + phdr.pMemsz ≤ filePages file.length

/-- A load is of a file that is refused by its bytes, or writes inside. -/
def LifeOp.Inside : LifeOp → Prop
  | .load vol _ filename => vol.Refuses filename ∨
    ∀ record, vol.Names filename record → WritesInside (fileRead vol record)
  | _ => True

/-! ### Blocks of a process -/

/-- The block `b` is the image of the process, its stack or a recorded allocation. -/
inductive Process.Uses (s : Kernel H) (P : Process) (b : Nat) : Prop where
  | elf {F} (filetype : P.filetype = processFormatElf) (file : s.elfFile P.ptr = some F) (block : F.elfMemory = b)
  | flat (filetype : P.filetype = processFormatFbin) (block : P.ptr = b)
  | stack (block : P.stack = b)
  | allocation (i : Nat) (slot : i < basicOSMaxAllocationsAllowedPerProcess) (used : (P.allocations i).ptr ≠ 0)
    (block : (P.allocations i).ptr = b)

/-- The block `b` is one the kernel keeps for the process `q`: its structure, its task, its
`struct elf_file`, or part of its directory. -/
inductive Process.KeptBy (s : Kernel H) (q : Nat) (Q : Process) : Nat → Prop where
  | process : Q.KeptBy s q q
  | task : Q.KeptBy s q Q.task
  | elfFile (filetype : Q.filetype = processFormatElf) : Q.KeptBy s q Q.ptr
  | chunk {T} (task : s.taskList.tasks Q.task = some T) : Q.KeptBy s q T.pageDirectory
  | directory {T} (task : s.taskList.tasks Q.task = some T) : Q.KeptBy s q (read32 s.ram.mem T.pageDirectory)
  | table {T} (task : s.taskList.tasks Q.task = some T) (i : Nat) (index : i < 1024) :
    Q.KeptBy s q (read32 s.ram.mem (read32 s.ram.mem T.pageDirectory + 4 * i) &&& 0xFFFFF000)

/-- **Write isolation.** Every page a process can write is in a live block that it uses itself, and that
no other process uses and the kernel does not have: neither for a process, nor from the start. -/
def WriteIsolated (C : Contract A) (held : Nat → Prop) (u : Lives H) : Prop :=
  ∀ p, u.live p → ∃ P, u.kernel.process p = some P ∧ ∀ k, k < 2 ^ 20 → ∃ word, u.kernel.pageWord p k = some word ∧
    (Writable word → ∃ b, P.Uses u.kernel b ∧ C.pages u.kernel.ram b ≠ 0 ∧ b ≤ pageOf word ∧
      pageOf word + heapBlockSize ≤ b + C.pages u.kernel.ram b * heapBlockSize ∧ ¬ held b ∧
      ∀ q Q, u.live q → u.kernel.process q = some Q → (Q.Uses u.kernel b → q = p) ∧ ¬ Q.KeptBy u.kernel q b)

/-- Nobody there yet, and the kernel has the blocks `held`. -/
structure Booted (C : Contract A) (held : Nat → Prop) (s : Lives H) : Prop where
  nobody : Nobody C s
  held : ∀ b, held b → C.pages s.kernel.ram b ≠ 0

/-! ### The pages of a program -/

/-- A word of an image comes from one of its segments, or was there before. -/
theorem mapSegments_apply (image : Nat) (entry : Nat → Nat) (phdrs : List Elf32Phdr) (k : Nat) :
    (∃ phdr ∈ phdrs, ∃ m ∈ segmentPages image phdr, mapSegments image entry phdrs k = m.2 + segmentRights phdr) ∨
      mapSegments image entry phdrs k = entry k := by
  induction phdrs generalizing entry with
  | nil => exact .inr rfl
  | cons phdr phdrs ih =>
    rcases ih (mapEntries entry (segmentRights phdr) (segmentPages image phdr)) with ⟨other, hother, hm⟩ | heq
    · exact .inl ⟨other, List.mem_cons_of_mem _ hother, hm⟩
    · rcases mapEntries_apply entry (segmentRights phdr) (segmentPages image phdr) k with ⟨m, hm, _, hword⟩ | ⟨_, hword⟩
      · exact .inl ⟨phdr, List.mem_cons_self .., m, hm, heq.trans hword⟩
      · exact .inr (heq.trans hword)

/-- A word that is not the identity's is one of a page mapped with these rights. -/
theorem writable_rights {m : Nat × Nat} {rights : Nat} (hrights : rights < pagingPageSize)
    (hpage : m.2 % pagingPageSize = 0) : pageOf (m.2 + rights) = m.2 ∧ (Writable (m.2 + rights) ↔ rights % 8 = 7) := by
  unfold pageOf Writable
  simp only [heapBlockSize, pagingPageSize, rightsWritable] at *
  omega

/-- The identity is not writable. -/
theorem newEntry_not_writable (k : Nat) : ¬ Writable (newEntry k) := by
  show ¬ (k * 4096 + 5) % 8 = 7
  omega

/-- The pages of a segment that stays in the pages of its file. -/
theorem segmentPages_inside {image pages : Nat} {phdr : Elf32Phdr} (halign : image % pagingPageSize = 0)
    (hfits : image + pages * pagingPageSize + pagingPageSize ≤ 2 ^ 32)
    (hinside : phdr.pOffset + phdr.pMemsz ≤ pages * pagingPageSize) {m : Nat × Nat} (hm : m ∈ segmentPages image phdr) :
    image ≤ m.2 ∧ m.2 + pagingPageSize ≤ image + pages * pagingPageSize := by
  have hphysical : elfPhdrComputePhysicalAddress image phdr = image + phdr.pOffset :=
    u32_of_lt (by simp only [pagingPageSize] at *; omega)
  have hend : u32 (image + phdr.pOffset + phdr.pMemsz) = image + phdr.pOffset + phdr.pMemsz :=
    u32_of_lt (by simp only [pagingPageSize] at *; omega)
  obtain ⟨hle, hlt, hrounded⟩ := @pagingAlignAddress_of_le (image + phdr.pOffset + phdr.pMemsz) (by omega)
  unfold segmentPages at hm
  simp only [hphysical, hend] at hm
  generalize pagingAlignAddress (image + phdr.pOffset + phdr.pMemsz) = last at *
  have hlow : pagingAlignToLowerPageAddr (image + phdr.pOffset) = image + phdr.pOffset - (image + phdr.pOffset) % 4096 := rfl
  rw [hlow] at hm
  unfold pagesFrom at hm
  obtain ⟨i, hi, rfl⟩ := List.mem_map.mp hm
  have hi := List.mem_range.mp hi
  simp only [pagingPageSize] at *
  rw [u32_of_lt (by omega)]
  omega

/-! ### A new process -/

section Loaded

variable {vol : Volume} {filename : List UInt8} {r₀ : Ram H} {u t : Kernel H} {other chunk : Nat} {D : DirectoryBlocks}
  {entry : Nat → Nat}

/-- The page of word `k` is in a block of the process that backs it. -/
def Ledger.Backed (L : Ledger) (p : Nat) (sp : Space) (k : Nat) : Prop :=
  ∃ b, L.pages b ≠ 0 ∧ b ≤ pageOf (sp.entry k) ∧ pageOf (sp.entry k) < b + L.pages b * heapBlockSize ∧ L.Backs p sp k b

theorem Ledger.backed_page {b k page : Nat} (hpage : page % heapBlockSize = 0) (hlive : L.pages b ≠ 0) (hle : b ≤ page)
    (hlt : page + heapBlockSize ≤ b + L.pages b * heapBlockSize) (hback : L.Backs p sp k b)
    (hword : sp.entry k = page + rightsWritable) : L.Backed p sp k := by
  have hof : pageOf (page + rightsWritable) = page := (writable_rights (m := (0, page)) (by decide) hpage).1
  refine ⟨b, hlive, ?_, ?_, hback⟩
  · rw [hword, hof]
    exact hle
  · rw [hword, hof]
    simp only [heapBlockSize] at *
    omega

/-- A block that has room for a file has its pages. -/
theorem filePages_le {length pages : Nat} (h : length ≤ pages * heapBlockSize) : filePages length ≤ pages * heapBlockSize := by
  unfold filePages
  simp only [heapBlockSize] at *
  omega

/-- The block of a new process, and its place. -/
theorem Ledger.Owns.place {b : Nat} {use : Use} {r : Ram H} (h : L.Owns p b use) (hvalid : C.Valid r.heap)
    (hpages : L.pages = C.live r.heap) : b % pagingPageSize = 0 ∧
      b + L.pages b * heapBlockSize + pagingPageSize ≤ 2 ^ 32 := by
  have hlive := h.live
  rw [hpages] at hlive ⊢
  obtain ⟨halign, _, hlast⟩ := C.placed hvalid hlive
  refine ⟨halign, ?_⟩
  simp only [heapBaseAddress, heapMaxHeapSize, heapBlockSize, pagingPageSize] at *
  omega

/-- The pages of a range that is mapped to a block are backed by it. -/
theorem Ledger.Owns.range_backed {b vAddr count k : Nat} {use : Use} {r : Ram H} (h : L.Owns p b use)
    (huse : use = .image ∨ use = .stack) (hvalid : C.Valid r.heap) (hpages : L.pages = C.live r.heap)
    (hcount : count ≤ L.pages b) (hentry : sp.entry k = mapEntries entry rightsWritable (pagesFrom vAddr b count) k)
    (hbefore : sp.entry k = entry k → L.Backed p sp k) : L.Backed p sp k := by
  obtain ⟨halign, hfits⟩ := h.place hvalid hpages
  have hpage : ∀ i, i < count → b + i * pagingPageSize < 2 ^ 32 ∧ (b + i * pagingPageSize) % heapBlockSize = 0 ∧
      b + i * pagingPageSize + heapBlockSize ≤ b + L.pages b * heapBlockSize := by
    clear hentry hbefore
    intro i hi
    simp only [heapBlockSize, pagingPageSize] at *
    omega
  have hback : L.Backs p sp k b := by
    rcases huse with rfl | rfl
    · exact .image h.owner
    · exact .stack h.owner
  rcases mapEntries_apply entry rightsWritable (pagesFrom vAddr b count) k with ⟨m, hm, _, hword⟩ | ⟨_, hsame⟩
  · rw [hword] at hentry
    obtain ⟨i, hi, rfl⟩ := List.mem_map.mp hm
    obtain ⟨hlt, halign, hle⟩ := hpage i (List.mem_range.mp hi)
    rw [u32_of_lt hlt] at hentry
    exact Ledger.backed_page halign h.live (Nat.le_add_right ..) hle hback hentry
  · exact hbefore (hentry.trans hsame)

/-- The words of the segments are backed by the image, if the writable ones stay in it. -/
theorem Ledger.Owns.segments_backed {image k : Nat} {r : Ram H} {phdrs : List Elf32Phdr} (h : L.Owns p image .image)
    (hvalid : C.Valid r.heap) (hpages : L.pages = C.live r.heap)
    (hinside : ∀ phdr ∈ phdrs, phdr.pFlags &&& pfW ≠ 0 → phdr.pOffset + phdr.pMemsz ≤ L.pages image * pagingPageSize)
    (hentry : sp.entry k = mapSegments image newEntry phdrs k) (hw : Writable (sp.entry k)) : L.Backed p sp k := by
  obtain ⟨halign, hfits⟩ := h.place hvalid hpages
  rcases mapSegments_apply image newEntry phdrs k with ⟨phdr, hphdr, m, hm, hword⟩ | hsame
  · have hrounded := (pagesFrom_aligned (pagingAlignToLowerPageAddr_aligned _) (pagingAlignToLowerPageAddr_aligned _) m hm).2.1
    have hrights := ((writable_rights (segmentRights_bits phdr).1 hrounded).2.mp (by rwa [← hword, ← hentry]))
    have hwrite : phdr.pFlags &&& pfW ≠ 0 := by
      intro hread
      unfold segmentRights at hrights
      rw [if_neg (not_not.mpr hread)] at hrights
      exact absurd hrights (by decide)
    obtain ⟨hle, hlt⟩ := segmentPages_inside halign hfits (hinside phdr hphdr hwrite) hm
    have hseven : segmentRights phdr = rightsWritable := if_pos hwrite
    exact Ledger.backed_page hrounded h.live hle hlt (.image h.owner) (by rw [hentry, hword, hseven])
  · rw [hentry, hsame] at hw
    exact absurd hw (newEntry_not_writable k)

/-- The words of a flat binary are backed by it. -/
theorem Ledger.Owns.flat_backed {ptr size k : Nat} {r : Ram H} (h : L.Owns p ptr .image) (hvalid : C.Valid r.heap)
    (hpages : L.pages = C.live r.heap) (hroom : size ≤ C.pages r ptr * heapBlockSize)
    (hentry : sp.entry k = flatEntries newEntry ptr size k) (hw : Writable (sp.entry k)) : L.Backed p sp k := by
  have hlive := h.live
  rw [hpages] at hlive
  obtain ⟨_, _, hsum, _, _, hend⟩ := block_range hvalid hlive hroom
  unfold flatEntries at hentry
  rw [hsum] at hentry
  refine h.range_backed (.inl rfl) hvalid hpages ?_ hentry fun hsame => ?_
  · rw [hpages]
    change _ ≤ C.pages r ptr
    apply Nat.div_le_of_le_mul
    simp only [heapBlockSize, pagingPageSize] at *
    omega
  · rw [hsame] at hw
    exact absurd hw (newEntry_not_writable k)

/-- **A new process can write its own blocks only**, if it is a flat binary or its file writes inside. -/
theorem NewProcess.isolated (h : NewProcess C vol filename r₀ p P other D chunk entry u)
    (hinside : P.filetype = processFormatElf → ∀ record, vol.Names filename record → WritesInside (fileRead vol record))
    (hres : Resident u L p P) (hpages : L.pages = C.live u.ram.heap) : L.Isolated p (newSpace entry) := by
  intro k _ hw
  have hvalid := h.taken.valid
  have hstack : bkeTaskUserStackSize / pagingPageSize ≤ L.pages P.stack := by
    have hroom := h.mapped.room
    rw [hpages]
    change _ ≤ C.pages u.ram P.stack
    simp only [bkeTaskUserStackSize, heapBlockSize, pagingPageSize] at *
    omega
  have himage : ∀ before : Nat → Nat, entry = stackEntries before P.stack →
      ((newSpace entry).entry k = before k → L.Backed p (newSpace entry) k) → L.Backed p (newSpace entry) k := by
    rintro before rfl hbefore
    exact hres.stack.range_backed (.inr rfl) hvalid hpages hstack rfl hbefore
  cases hres.image with
  | @elf F htype hF _ hmemory =>
    obtain ⟨F', record, phdrs, hF', hholds, hheaders, hentry⟩ := h.elf htype
    obtain rfl : F = F' := Option.some_inj.mp (hF.symm.trans hF')
    obtain ⟨hfile, hsegments⟩ := hinside htype record hholds.names
    rw [hheaders hfile] at hentry
    refine himage _ hentry fun hsame => hmemory.segments_backed hvalid hpages (fun phdr hphdr hwrite => ?_) hsame hw
    refine Nat.le_trans (hsegments phdr hphdr hwrite) (filePages_le ?_)
    rw [length_fileRead, hpages]
    exact hholds.room
  | flat htype hptr =>
    cases h.mapped.image with
    | elf helf _ _ _ => exact absurd (htype.symm.trans helf) (by decide)
    | @flat record _ hsize hholds =>
      cases h.mapped.layout with
      | elf helf _ _ => exact absurd (htype.symm.trans helf) (by decide)
      | flat _ =>
        refine himage _ rfl fun hsame => hptr.flat_backed hvalid hpages ?_ hsame hw
        rw [hsize]
        exact hholds.room

end Loaded

/-! ### Owners -/

/-- The ledger with the owners that have a space. -/
def Ledger.tidy (L : Ledger) : Ledger :=
  {L with owner := fun b => (L.owner b).filter fun owner => (L.space owner.process).isSome}

/-- Every owner has a space. -/
def Ledger.Tidy (L : Ledger) : Prop := ∀ b owner, L.owner b = some owner → ∃ sp, L.space owner.process = some sp

theorem Ledger.tidy_owner {b : Nat} {owner : Owner} :
    L.tidy.owner b = some owner ↔ L.owner b = some owner ∧ ∃ sp, L.space owner.process = some sp := by
  unfold Ledger.tidy
  rw [Option.filter_eq_some_iff, Option.isSome_iff_exists]

theorem Ledger.tidy_tidy (L : Ledger) : L.tidy.Tidy := fun _ _ h => (Ledger.tidy_owner.mp h).2

/-- Nothing of a process that is there goes. -/
theorem Ledger.keeps_tidy (h : L.space p = some sp) : L.Keeps L.tidy p := fun _ _ _ howner =>
  ⟨rfl, (Ledger.tidy_owner.mpr ⟨howner, sp, h⟩).trans howner.symm⟩

theorem Populated.tidy {s : Kernel H} (h : Populated C s L) : Populated C s L.tidy := by
  refine ⟨⟨h.accounts.valid, h.accounts.pages, fun p sp hp => ?_⟩, fun p sp hp => ?_, fun p sp hp => ?_⟩
  · obtain ⟨P, T, D, hheld⟩ := h.accounts.held p sp hp
    exact ⟨P, T, D, hheld.frame rfl hheld.task rfl (Ledger.keeps_tidy hp) fun _ _ _ _ => rfl⟩
  · exact (h.recorded p sp hp).keeps (Ledger.keeps_tidy hp)
  · obtain ⟨P, hP⟩ := h.resident p sp hp
    exact ⟨P, hP.keeps (Ledger.keeps_tidy hp) hP.process ⟨rfl, rfl, rfl, rfl⟩ rfl⟩

/-- What every process can write is its own, it has one image and one stack, and the blocks in `held` are
nobody's. -/
structure Ledger.Confined (held : Nat → Prop) (L : Ledger) : Prop where
  isolated : ∀ p sp, L.space p = some sp → L.Isolated p sp
  sole : ∀ p b c use, use = .image ∨ use = .stack → L.owner b = some ⟨p, use⟩ → L.owner c = some ⟨p, use⟩ → b = c
  held : ∀ b, held b → L.pages b ≠ 0 ∧ L.owner b = none

variable {held : Nat → Prop}

theorem Ledger.Confined.tidy {s : Kernel H} (h : L.Confined held) (hpopulated : Populated C s L) : L.tidy.Confined held := by
  refine ⟨fun p sp hp => ?_, fun p b c use huse hb hc => ?_, fun b hb => ⟨(h.held b hb).1, ?_⟩⟩
  · exact (h.isolated p sp hp).keeps (hpopulated.recorded p sp hp) (Ledger.keeps_tidy hp)
  · exact h.sole p b c use huse (Ledger.tidy_owner.mp hb).1 (Ledger.tidy_owner.mp hc).1
  · unfold Ledger.tidy
    simp only [(h.held b hb).2, Option.filter_none]

/-- A new process has one image and one stack. -/
theorem newUse_sole {D : DirectoryBlocks} {chunk process other b c : Nat} {use : Use} (huse : use = .image ∨ use = .stack)
    (hb : newUse D chunk process P other b = some use) (hc : newUse D chunk process P other c = some use) : b = c := by
  have himage : ∀ b, newUse D chunk process P other b = some .image →
      b = if P.filetype = processFormatElf then other else P.ptr := by
    intro b hb
    unfold newUse at hb
    split_ifs at hb ⊢ <;> simp_all
  have hstack : ∀ b, newUse D chunk process P other b = some .stack → b = P.stack := by
    intro b hb
    unfold newUse at hb
    split_ifs at hb <;> simp_all
  rcases huse with rfl | rfl
  · exact (himage b hb).trans (himage c hc).symm
  · exact (hstack b hb).trans (hstack c hc).symm

/-- A block in the ledger after an arrival is one of the new process, or it was there before. -/
theorem arrived_owner {D : DirectoryBlocks} {chunk process other b : Nat} {entry pages : Nat → Nat} {use : Use}
    (htidy : L.Tidy) (hnew : L.space process = none)
    (h : (arrived L D chunk process P other entry pages).owner b = some ⟨q, use⟩) :
    (q = process ∧ newUse D chunk process P other b = some use) ∨ (q ≠ process ∧ L.owner b = some ⟨q, use⟩) := by
  unfold arrived Ledger.arrive at h
  simp only at h
  split at h
  · rename_i use' huse
    obtain ⟨rfl, rfl⟩ := Owner.mk.inj (Option.some_inj.mp h)
    exact .inl ⟨rfl, huse⟩
  · refine .inr ⟨?_, h⟩
    rintro rfl
    obtain ⟨sp, hsp⟩ := htidy b _ h
    rw [hnew] at hsp
    cases hsp

section Confined

variable {s : Kernel H} {i ptr size n : Nat}

/-- Processes stay confined when one arrives that is. -/
theorem Ledger.Confined.arrive {D : DirectoryBlocks} {chunk process other : Nat} {entry pages : Nat → Nat}
    (h : L.Confined held) (htidy : L.Tidy) (hpopulated : Populated C s L)
    (harrival : L.Arrival process (newSpace entry) (arrived L D chunk process P other entry pages))
    (hself : (arrived L D chunk process P other entry pages).Isolated process (newSpace entry)) :
    (arrived L D chunk process P other entry pages).Confined held := by
  refine ⟨Ledger.forall_space h.isolated harrival.space (fun q sq _ hq hiso => ?_) ?_, fun q b c use huse hb hc => ?_,
    fun b hb => ?_⟩
  · exact hiso.keeps (hpopulated.recorded q sq hq) (harrival.keeps q)
  · rintro sp ⟨⟩
    exact hself
  · rcases arrived_owner htidy harrival.new hb with ⟨rfl, hb⟩ | ⟨hne, hb⟩
    · rcases arrived_owner htidy harrival.new hc with ⟨_, hc⟩ | ⟨hne, _⟩
      · exact newUse_sole huse hb hc
      · exact absurd rfl hne
    · rcases arrived_owner htidy harrival.new hc with ⟨heq, _⟩ | ⟨_, hc⟩
      · exact absurd heq hne
      · exact h.sole q b c use huse hb hc
  · obtain ⟨hlive, hnobody⟩ := h.held b hb
    obtain ⟨hpages, howner⟩ := harrival.kept b hlive
    exact ⟨hpages ▸ hlive, howner.trans hnobody⟩

theorem Ledger.Confined.kept {pages : Nat → Nat} (h : L.Confined held) (hpopulated : Populated C s L)
    (hkept : ∀ b, L.pages b ≠ 0 → pages b = L.pages b) : Ledger.Confined held {L with pages := pages} := by
  refine ⟨fun q sq hq => ?_, h.sole, fun b hb => ?_⟩
  · exact (h.isolated q sq hq).keeps (hpopulated.recorded q sq hq) fun b _ hb _ => ⟨hkept b hb, rfl⟩
  · obtain ⟨hlive, hnobody⟩ := h.held b hb
    exact ⟨(hkept b hlive).trans_ne hlive, hnobody⟩

/-- A new block is an allocation, no image and no stack. -/
theorem Ledger.Confined.malloc (h : L.Confined held) (hpopulated : Populated C s L) (hsp : L.space q = some sp)
    (hslot : i < basicOSMaxAllocationsAllowedPerProcess) (hempty : (sp.allocation i).ptr = 0) (hne : ptr ≠ 0)
    (hfresh : L.pages ptr = 0) (hn : n ≠ 0) (hroom : size ≤ n * heapBlockSize) :
    (L.malloc q sp i ptr size n).Confined held := by
  refine ⟨Ledger.forall_space h.isolated rfl (fun q' sq _ hq hiso => ?_) ?_, fun q' b c use huse hb hc => ?_,
    fun b hb => ?_⟩
  · exact hiso.keeps (hpopulated.recorded q' sq hq) (Ledger.keeps_malloc hfresh q')
  · rintro sp' ⟨⟩
    exact (h.isolated q sp hsp).malloc (hpopulated.recorded q sp hsp) hslot hempty hne hfresh hn hroom
  · have hbefore : ∀ b, (L.malloc q sp i ptr size n).owner b = some ⟨q', use⟩ → L.owner b = some ⟨q', use⟩ := by
      intro b hb
      refine (Function.update_of_ne ?_ ..).symm.trans hb
      rintro rfl
      have hslot := (Function.update_self ..).symm.trans hb
      rcases huse with rfl | rfl <;> simp at hslot
    exact h.sole q' b c use huse (hbefore b hb) (hbefore c hc)
  · obtain ⟨hlive, hnobody⟩ := h.held b hb
    have hother : b ≠ ptr := fun heq => hlive (heq ▸ hfresh)
    exact ⟨(Function.update_of_ne hother ..).trans_ne hlive, (Function.update_of_ne hother ..).trans hnobody⟩

theorem Ledger.Confined.free (h : L.Confined held) (hpopulated : Populated C s L) (hsp : L.space q = some sp)
    (hi : sp.Holds i) : (L.free q sp i).Confined held := by
  have hrec := hpopulated.recorded q sp hsp
  refine ⟨Ledger.forall_space h.isolated rfl (fun q' sq hqq hq hiso => ?_) ?_, h.sole, fun b hb => ?_⟩
  · exact hiso.keeps (hpopulated.recorded q' sq hq) (Ledger.keeps_free hrec hi hqq)
  · rintro sp' ⟨⟩
    exact (h.isolated q sp hsp).free hrec hi
  · obtain ⟨hlive, hnobody⟩ := h.held b hb
    have hother : b ≠ (sp.allocation i).ptr := by
      rintro rfl
      rw [(hrec.owned i hi).1] at hnobody
      cases hnobody
    exact ⟨(Function.update_of_ne hother ..).trans_ne hlive, hnobody⟩

theorem Ledger.Confined.depart (h : L.Confined held) (hpopulated : Populated C s L) (hdeparture : L.Departure q L') :
    L'.Confined held := by
  refine ⟨Ledger.forall_space h.isolated hdeparture.space (fun q' sq hqq hq hiso => ?_) (by simp), ?_, fun b hb => ?_⟩
  · exact hiso.keeps (hpopulated.recorded q' sq hq) (hdeparture.keeps hqq)
  · rw [hdeparture.owner]
    exact h.sole
  · obtain ⟨hlive, hnobody⟩ := h.held b hb
    rw [hdeparture.owner]
    refine ⟨?_, hnobody⟩
    rcases hdeparture.kept b with hkept | ⟨_, use, howner⟩
    · rw [hkept]
      exact hlive
    · rw [hnobody] at howner
      cases howner

end Confined

/-- **Every transaction keeps processes confined**, if what is loaded writes inside. -/
theorem Ledger.Transaction.confined {s t : Kernel H} {op : LifeOp} (htransaction : L.Transaction C s t op L')
    (h : L.Confined held) (htidy : L.Tidy) (hpopulated : Populated C s L) (hinside : op.Inside) : L'.Confined held := by
  cases htransaction with
  | @arrival vol junk filename process P other D chunk entry u processes current hstate hrun hnew harrival hresident =>
    refine h.arrive htidy hpopulated harrival (hnew.isolated (fun helf => ?_) hresident rfl)
    refine Or.resolve_left hinside fun hrefuses => ?_
    obtain ⟨Q, hQ, hflat⟩ := processLoadSwitch_isFlat hpopulated.accounts.valid hrefuses hrun
    rw [hstate] at hQ
    obtain rfl : P = Q := Option.some_inj.mp (hnew.made.symm.trans hQ)
    exact absurd (helf.symm.trans hflat) (by decide)
  | kept hkept => exact h.kept hpopulated hkept
  | malloc hsp hslot hempty hne hfresh hn hroom => exact h.malloc hpopulated hsp hslot hempty hne hfresh hn hroom
  | free hsp hi => exact h.free hpopulated hsp hi
  | departure hdeparture => exact h.depart hpopulated hdeparture

/-! ### Runs -/

/-- Nothing is owned at the start. -/
theorem Booted.confined {s : Lives H} (h : Booted C held s) :
    (Ledger.empty (C.live s.kernel.ram.heap)).Confined held := by
  refine ⟨?_, ?_, fun b hb => ⟨h.held b hb, rfl⟩⟩
  · intro p sp hp
    cases hp
  · intro p b c use _ hb
    cases hb

/-- What a process can write is confined in every state of a run that loads what writes inside. -/
theorem confined_of_run {s : Lives H} (hrun : Run (LifeStep A) (fun _ op => op.Inside) (Booted C held) s) :
    ∃ L, s.Accounted C L ∧ L.Confined held := by
  refine hrun.invariant (I := fun s => ∃ L, s.Accounted C L ∧ L.Confined held)
    (fun s h => ⟨_, h.nobody.accounted, h.confined⟩) fun s op t h hinside hstep => ?_
  obtain ⟨L, ⟨hpopulated, hlive, hclosed⟩, hconfined⟩ := h
  have htidy : s.Accounted C L.tidy := ⟨hpopulated.tidy, hlive, hclosed⟩
  obtain ⟨L', haccounted, htransaction⟩ := htidy.transact hstep
  exact ⟨L', haccounted, htransaction.confined (hconfined.tidy hpopulated) L.tidy_tidy hpopulated.tidy hinside⟩

/-! ### Owners and uses -/

/-- The process itself uses the block, and not the kernel for it. -/
def Use.Direct : Use → Prop
  | .image | .stack | .allocation _ => True
  | _ => False

section Uses

variable {s : Kernel H}

/-- A block that a process uses is its own. -/
theorem Process.Uses.owned {b : Nat} (h : P.Uses s b) (hres : Resident s L p P) (hrec : L.Recorded p sp)
    (hslots : P.allocations = sp.allocation) :
    ∃ use, L.owner b = some ⟨p, use⟩ ∧ use.Direct := by
  cases h with
  | elf htype hF hblock =>
    cases hres.image with
    | flat hflat _ => exact absurd (htype.symm.trans hflat) (by decide)
    | elf _ hF' _ himage =>
      obtain rfl := Option.some_inj.mp (hF.symm.trans hF')
      exact ⟨.image, hblock ▸ himage.owner, trivial⟩
  | flat htype hblock =>
    cases hres.image with
    | elf helf _ _ _ => exact absurd (htype.symm.trans helf) (by decide)
    | flat _ himage => exact ⟨.image, hblock ▸ himage.owner, trivial⟩
  | stack hblock => exact ⟨.stack, hblock ▸ hres.stack.owner, trivial⟩
  | allocation i hi hused hblock =>
    rw [hslots] at hused hblock
    exact ⟨.allocation i, hblock ▸ (hrec.owned i ⟨hi, hused⟩).1, trivial⟩

/-- A block that backs a page is used. -/
theorem Ledger.Backs.uses {k b : Nat} (h : L.Backs p sp k b) (hconfined : L.Confined held) (hres : Resident s L p P)
    (hslots : P.allocations = sp.allocation) : P.Uses s b := by
  cases h with
  | image hb =>
    cases hres.image with
    | elf htype hF _ himage => exact .elf htype hF (hconfined.sole p _ b _ (.inl rfl) himage.owner hb)
    | flat htype himage => exact .flat htype (hconfined.sole p _ b _ (.inl rfl) himage.owner hb)
  | stack hb => exact .stack (hconfined.sole p _ b _ (.inr rfl) hres.stack.owner hb)
  | allocation i hi hb _ =>
    refine .allocation i hi.slot ?_ ?_
    · rw [hslots]
      exact hi.used
    · rw [hslots]
      exact hb

/-- A block the kernel keeps for a process is owned for that. -/
theorem Process.KeptBy.owned {T : Task} {D : DirectoryBlocks} {b : Nat} (h : P.KeptBy s p b) (hres : Resident s L p P)
    (hheld : HeldBy C s L p sp P T D) :
    ∃ use, L.owner b = some ⟨p, use⟩ ∧ ¬ use.Direct := by
  have htask : ∀ T', s.taskList.tasks P.task = some T' → T' = T := fun T' hT' =>
    Option.some_inj.mp (hT'.symm.trans hheld.task)
  have hpaging : ∀ b, b ∈ D.blocks T.pageDirectory → ∃ use, L.owner b = some ⟨p, use⟩ ∧ ¬ use.Direct := fun b hb =>
    ⟨_, (hheld.blocks b hb).2, not_false⟩
  cases h with
  | process => exact ⟨_, hres.self.owner, not_false⟩
  | task => exact ⟨_, hres.task.owner, not_false⟩
  | elfFile htype =>
    cases hres.image with
    | flat hflat _ => exact absurd (htype.symm.trans hflat) (by decide)
    | elf _ _ hheader _ => exact ⟨_, hheader.owner, not_false⟩
  | @chunk T' hT' =>
    obtain rfl := htask T' hT'
    exact hpaging _ (DirectoryBlocks.mem_blocks.mpr (.inl rfl))
  | @directory T' hT' =>
    obtain rfl := htask T' hT'
    rw [hheld.chunkOf.directory]
    exact hpaging _ (DirectoryBlocks.mem_blocks.mpr (.inr (.inl rfl)))
  | @table T' hT' i hi =>
    obtain rfl := htask T' hT'
    rw [hheld.chunkOf.directory, (hheld.tables.table hi).1]
    exact hpaging _ (DirectoryBlocks.mem_blocks.mpr (.inr (.inr ⟨i, hi, rfl⟩)))

end Uses

/-- **A process writes to its own blocks only**, in every state of a run in which every file that is
loaded is refused as ELF by its bytes, or has its program headers in it and what they make writable in its
pages. -/
theorem writeIsolated_of_run {s : Lives H} (hrun : Run (LifeStep A) (fun _ op => op.Inside) (Booted C held) s) :
    WriteIsolated C held s := by
  obtain ⟨L, haccounted, hconfined⟩ := confined_of_run hrun
  have hpopulated := haccounted.populated
  intro p hp
  obtain ⟨sp, hsp⟩ := haccounted.live p hp
  obtain ⟨P, hres⟩ := hpopulated.resident p sp hsp
  obtain ⟨P', T, D, hheld⟩ := hpopulated.accounts.held p sp hsp
  obtain rfl : P = P' := Option.some_inj.mp (hres.process.symm.trans hheld.process)
  have hrec := hpopulated.recorded p sp hsp
  refine ⟨P, hres.process, fun k hk => ⟨sp.entry k, hheld.pageWord hk, fun hw => ?_⟩⟩
  obtain ⟨b, hlive, hle, hlt, hback⟩ := hconfined.isolated p sp hsp k hk hw
  have huses := hback.uses hconfined hres hheld.allocation
  obtain ⟨use, howner, huse⟩ := huses.owned hres hrec hheld.allocation
  have halign := (hpopulated.accounts.placed.placed b hlive).1
  refine ⟨b, huses, hpopulated.accounts.live_iff.mp hlive, hle, ?_, fun hheldb => ?_, fun q Q hq hQ => ?_⟩
  · rw [hpopulated.accounts.pages] at hlt
    change _ < b + C.pages s.kernel.ram b * heapBlockSize at hlt
    have hpage : pageOf (sp.entry k) % heapBlockSize = 0 := by
      unfold pageOf
      simp only [heapBlockSize]
      omega
    simp only [heapBlockSize] at *
    omega
  · rw [(hconfined.held b hheldb).2] at howner
    cases howner
  obtain ⟨sq, hsq⟩ := haccounted.live q hq
  obtain ⟨Q', hresq⟩ := hpopulated.resident q sq hsq
  obtain rfl : Q = Q' := Option.some_inj.mp (hQ.symm.trans hresq.process)
  obtain ⟨Q', T', D', hheldq⟩ := hpopulated.accounts.held q sq hsq
  obtain rfl : Q = Q' := Option.some_inj.mp (hQ.symm.trans hheldq.process)
  constructor
  · intro husesq
    obtain ⟨use', howner', _⟩ := husesq.owned hresq (hpopulated.recorded q sq hsq) hheldq.allocation
    exact (Owner.mk.inj (Option.some_inj.mp (howner'.symm.trans howner))).1
  · intro hkept
    obtain ⟨use', howner', huse'⟩ := hkept.owned hresq hheldq
    obtain ⟨_, rfl⟩ := Owner.mk.inj (Option.some_inj.mp (howner'.symm.trans howner))
    exact huse' huse

/-! ### A program that writes inside, and one that does not -/

/-- The program of `programFile` with a writable segment, `offset` times 2^24 bytes from its start. -/
def writingFile (offset : UInt8) : List UInt8 := ((programFile 0 100).set 76 7).set 59 offset

def writingVolume (offset : UInt8) : Volume where
  disk a := if a < 1536 then smallDisk a else (writingFile offset).getD (a - 1536) 0
  mounted := some ⟨fatHeader smallDisk, [programRecord], 1, 2, 3⟩

/-- How its load ends before the mapping, the format found, and whether its file was read. -/
def writingUnmapped (offset : UInt8) : Option ((Option Int × Option Nat) × Bool) :=
  match loadUnmapped ladder (writingVolume offset) 0 pathX 0 0x1000000 overlayKernel with
  | .ok (out, s) => some ((out, (s.process 0x1000000).map Process.filetype),
    fileImage (writingVolume offset) programRecord = (1, writingFile offset))
  | .error _ => none

set_option maxRecDepth 100000 in
theorem writingUnmapped_eq : writingUnmapped 0 = some ((none, some processFormatElf), true) ∧
    writingUnmapped 7 = some ((none, some processFormatElf), true) := by decide +kernel

theorem writingFile_headers (offset : UInt8) : HeadersInFile (writingFile offset) := by
  refine ⟨?_, rfl, ?_⟩
  · show 46 ≤ 100
    decide
  · show 52 + 1 * 32 ≤ 100
    decide

/-- The volume has no other file. -/
theorem writing_named {offset : UInt8} {record : FatDirectoryItem} (h : (writingVolume offset).Names pathX record) :
    record = programRecord := by
  obtain ⟨priv, hmounted, i, full, hi, hrecord, _⟩ := h
  obtain rfl := Option.some_inj.mp hmounted
  have hi : i < 1 := hi
  obtain rfl : i = 0 := by omega
  exact (Option.some_inj.mp hrecord).symm

/-- The file read is the one written, and its segment is mapped from `offset` on. -/
structure Writing (offset : UInt8) : Prop where
  unmapped : writingUnmapped offset = some ((none, some processFormatElf), true)
  phdrs : fileHeaders (writingFile offset) = [⟨ptLoad, offset.toNat * 2 ^ 24, 0x400000, 100, 100, 7⟩]
  low : offset.toNat ≤ 7

theorem writing_inside : Writing 0 := ⟨writingUnmapped_eq.1, by decide, by decide⟩

theorem writing_outside : Writing 7 := ⟨writingUnmapped_eq.2, by decide, by decide⟩

section Writing

variable {offset : UInt8}

theorem Writing.fileRead (h : Writing offset) : fileRead (writingVolume offset) programRecord = writingFile offset := by
  have hunmapped := h.unmapped
  unfold writingUnmapped at hunmapped
  split at hunmapped
  · have himage := of_decide_eq_true (Prod.mk.inj (Option.some_inj.mp hunmapped)).2
    unfold BasicOS.fileRead
    rw [himage]
    apply List.ext_getElem
    · rw [List.length_map, List.length_range]
      rfl
    · intro i hi _
      rw [List.getElem_map, List.getElem_range, List.getD_eq_getElem]
  · cases hunmapped

/-- The page of the segment. -/
theorem Writing.segment (h : Writing offset) {image : Nat} (halign : image % pagingPageSize = 0)
    (hlast : image ≤ heapBaseAddress + heapMaxHeapSize) :
    segmentPages image ⟨ptLoad, offset.toNat * 2 ^ 24, 0x400000, 100, 100, 7⟩ =
        [(0x400000, image + offset.toNat * 2 ^ 24)] ∧
      Elf32Phdr.Ends image ⟨ptLoad, offset.toNat * 2 ^ 24, 0x400000, 100, 100, 7⟩ := by
  have hlow := h.low
  refine segment_page 7 halign ?_ (by decide) (by decide) ?_
  · simp only [pagingPageSize]
    omega
  · simp only [heapBaseAddress, heapMaxHeapSize] at hlast
    omega

/-- A process that was loaded becomes the current one. -/
theorem processLoadSwitch_of_load {vol : Volume} {junk : Uninitialised} {filename : List UInt8} {s t : Kernel H}
    (hload : processLoad A vol junk filename s = .ok ((0, some p), t)) :
    processLoadSwitch A vol junk filename s = .ok ((0, some p), {t with currentProcess := p}) := by
  unfold processLoadSwitch
  rw [bind_apply, hload]
  rfl

/-- The program is loaded. -/
theorem Writing.loaded (h : Writing offset) : ∃ t P,
    processLoadSwitch ladder (writingVolume offset) ⟨0, 0⟩ pathX noProcesses = .ok ((0, some 0x1000000), t) ∧
      t.process 0x1000000 = some P ∧ P.filetype = processFormatElf := by
  have hunmapped := h.unmapped
  unfold writingUnmapped at hunmapped
  cases hload : loadUnmapped ladder (writingVolume offset) 0 pathX 0 0x1000000 overlayKernel with
  | error e =>
    rw [hload] at hunmapped
    cases hunmapped
  | ok a =>
    obtain ⟨out, v⟩ := a
    rw [hload] at hunmapped
    obtain ⟨rfl, hprocess⟩ := Prod.mk.inj (Prod.mk.inj (Option.some_inj.mp hunmapped)).1
    obtain ⟨P, hP, hfiletype⟩ := Option.map_eq_some_iff.mp hprocess
    obtain ⟨w, hinto, hw⟩ := loadInto_elf overlayKernel_valid
      (show overlayKernel.process 0x1000000 = some zeroProcess from rfl) ⟨rfl, rfl, rfl⟩ hload hP hfiletype
      fun image record hnames halign hlast => by
        obtain rfl := writing_named hnames
        rw [h.fileRead, h.phdrs]
        exact ⟨writingFile_headers offset, List.forall_mem_singleton.mpr (h.segment halign hlast).2⟩
    exact ⟨_, P, processLoadSwitch_of_load (processLoad_first hinto), hw, hfiletype⟩

/-- It is loaded at the start of a run. -/
theorem Writing.lived (h : Writing offset) (ok : Lives Ladder → LifeOp → Prop)
    (hok : ok ⟨noProcesses, fun _ => False⟩ (.load (writingVolume offset) ⟨0, 0⟩ pathX)) :
    ∃ t P, processLoadSwitch ladder (writingVolume offset) ⟨0, 0⟩ pathX noProcesses = .ok ((0, some 0x1000000), t) ∧
      t.process 0x1000000 = some P ∧ P.filetype = processFormatElf ∧
      Run (LifeStep ladder) ok (Booted ladderContract fun _ => False) ⟨t, fun q => q = 0x1000000 ∨ False⟩ := by
  obtain ⟨t, P, hload, hP, hfiletype⟩ := h.loaded
  have hstart : Booted ladderContract (fun _ => False) ⟨noProcesses, fun _ => False⟩ :=
    ⟨⟨noProcesses_valid, fun _ => rfl, fun _ => id⟩, fun _ => False.elim⟩
  exact ⟨t, P, hload, hP, hfiletype, .step (.start hstart) hok (.load hload)⟩

end Writing

/-- The program whose segment is in its file is loaded, and confined. -/
theorem writeIsolated_inside : ∃ s, s.live 0x1000000 ∧
    Run (LifeStep ladder) (fun _ op => op.Inside) (Booted ladderContract fun _ => False) s ∧
    WriteIsolated ladderContract (fun _ => False) s := by
  have hinside : LifeOp.Inside (.load (writingVolume 0) ⟨0, 0⟩ pathX) := by
    refine .inr fun record hnames => ?_
    obtain rfl := writing_named hnames
    rw [writing_inside.fileRead]
    refine ⟨writingFile_headers 0, ?_⟩
    rw [writing_inside.phdrs]
    exact List.forall_mem_singleton.mpr fun _ => by decide
  obtain ⟨t, P, _, _, _, hrun⟩ := writing_inside.lived (fun _ op => op.Inside) hinside
  exact ⟨_, Or.inl rfl, hrun, writeIsolated_of_run hrun⟩

/-- The words of a new process are in its directory. -/
theorem NewProcess.pageWord {vol : Volume} {filename : List UInt8} {r₀ : Ram H} {u : Kernel H} {other chunk k : Nat}
    {D : DirectoryBlocks} {entry : Nat → Nat} (h : NewProcess C vol filename r₀ p P other D chunk entry u)
    (hk : k < 2 ^ 20) : u.pageWord p k = some (entry k) := by
  obtain ⟨T, hT, hdir⟩ := loadTask_chunk h.mapped.directory
  unfold Kernel.pageWord
  rw [h.made]
  show (do let T ← u.taskList.tasks P.task; _) = _
  rw [hT]
  show some (pagingGet u.ram.mem (read32 u.ram.mem T.pageDirectory) (k * pagingPageSize)) = _
  rw [hdir, h.mapped.chunkOf.directory, h.mapped.tables.get hk]

theorem NewProcess.stack_fits {vol : Volume} {filename : List UInt8} {r₀ : Ram H} {u : Kernel H} {other chunk : Nat}
    {D : DirectoryBlocks} {entry : Nat → Nat} (h : NewProcess C vol filename r₀ p P other D chunk entry u) :
    P.stack + bkeTaskUserStackSize ≤ 2 ^ 32 := by
  obtain ⟨_, _, hlast⟩ := C.placed h.taken.valid (h.taken.fresh P.stack (by simp)).2
  change P.stack + C.pages u.ram P.stack * heapBlockSize ≤ _ at hlast
  have hroom := h.mapped.room
  have hend : P.stack + bkeTaskUserStackSize ≤ heapBaseAddress + heapMaxHeapSize := by omega
  exact Nat.le_trans hend (by decide)

theorem mapSegments_one (image : Nat) (entry : Nat → Nat) (phdr : Elf32Phdr) :
    mapSegments image entry [phdr] = mapEntries entry (segmentRights phdr) (segmentPages image phdr) := rfl

/-- A page that is mapped has its word. -/
theorem mapEntries_one (entry : Nat → Nat) (bits v page : Nat) :
    mapEntries entry bits [(v * pagingPageSize, page)] v = page + bits := by
  rw [mapEntries_cons]
  show Function.update entry (v * pagingPageSize / pagingPageSize) (page + bits) v = _
  rw [Nat.mul_div_cancel v (by decide), Function.update_self]

/-- Page 0x400 of a process with that segment is the page of the segment. -/
theorem Writing.word {offset : UInt8} (h : Writing offset) {stack image : Nat} (halign : image % pagingPageSize = 0)
    (hlast : image ≤ heapBaseAddress + heapMaxHeapSize) (hstack : stack + bkeTaskUserStackSize ≤ 2 ^ 32) :
    stackEntries (mapSegments image newEntry (fileHeaders (writingFile offset))) stack 0x400 =
      image + offset.toNat * 2 ^ 24 + rightsWritable := by
  have hpages : bkeTaskUserStackSize / pagingPageSize * pagingPageSize = bkeTaskUserStackSize := by decide
  rw [← hpages] at hstack
  unfold stackEntries
  rcases mapEntries_apply (mapSegments image newEntry (fileHeaders (writingFile offset))) rightsWritable
    (pagesFrom bkeTaskProgramVirtualStackAddrEnd stack (bkeTaskUserStackSize / pagingPageSize)) 0x400 with
    ⟨m, hm, hpage, _⟩ | ⟨_, hsame⟩
  · -- the stack is below
    exfalso
    obtain ⟨i, hi, rfl⟩ := (mem_pagesFrom (by decide) hstack).mp hm
    have hi : i < 4 := hi
    simp only [bkeTaskProgramVirtualStackAddrEnd, bkeTaskProgramVirtualStackAddrStart, bkeTaskUserStackSize,
      pagingPageSize] at hpage
    omega
  · have hrights : segmentRights ⟨ptLoad, offset.toNat * 2 ^ 24, 0x400000, 100, 100, 7⟩ = rightsWritable :=
      if_pos (show 7 &&& pfW ≠ 0 by decide)
    rw [hsame, h.phdrs, mapSegments_one, (h.segment halign hlast).1, hrights]
    exact mapEntries_one newEntry rightsWritable 0x400 _

/-- **A program that writes outside**: one with a segment behind its file is loaded, and can write a page
that is in no block of the heap. -/
theorem writeIsolated_outside : ¬ ∀ (held : Nat → Prop) (s : Lives Ladder),
    Run (LifeStep ladder) (fun _ _ => True) (Booted ladderContract held) s → WriteIsolated ladderContract held s := by
  intro h
  obtain ⟨t, P, hload, hP, hfiletype, hrun⟩ := writing_outside.lived (fun _ _ => True) trivial
  obtain ⟨_, _, hpages⟩ := h _ _ hrun 0x1000000 (Or.inl rfl)
  obtain ⟨word, hword, hisolated⟩ := hpages 0x400 (by decide)
  rcases (processLoadSwitch_loads (C := ladderContract) ⟨0, 0⟩ noProcesses_valid).returned hload with
    hneg | ⟨p, hout, _, hloads⟩
  · exact absurd hneg (by decide)
  obtain rfl := Option.some_inj.mp (Prod.mk.inj hout).2
  cases hloads with
  | @mk Q other D chunk entry u processes current frame new =>
    obtain rfl : P = Q := Option.some_inj.mp (hP.symm.trans new.made)
    obtain ⟨F, record, phdrs, hF, hholds, hheaders, rfl⟩ := new.elf hfiletype
    obtain rfl := writing_named hholds.names
    rw [writing_outside.fileRead] at hheaders
    obtain rfl := hheaders (writingFile_headers 7)
    have hvalid := new.taken.valid
    obtain ⟨halign, hbase, hlast⟩ := ladderContract.placed hvalid hholds.live
    have hentry := writing_outside.word halign (Nat.le_trans (Nat.le_add_right ..) hlast) new.stack_fits
    have hpage : u.pageWord 0x1000000 0x400 = some word := hword
    rw [new.pageWord (by decide), Option.some_inj, hentry] at hpage
    have hsegment : (F.elfMemory + 7 * 2 ^ 24) % pagingPageSize = 0 := by
      simp only [heapBlockSize, pagingPageSize] at halign ⊢
      omega
    obtain ⟨hof, hwritable⟩ := @writable_rights (0, F.elfMemory + (7 : UInt8).toNat * 2 ^ 24) rightsWritable (by decide)
      hsegment
    obtain ⟨b, _, hlive, _, hin, _⟩ := hisolated (hpage ▸ hwritable.mpr rfl)
    -- that page is behind the heap
    obtain ⟨_, _, hend⟩ := ladderContract.placed hvalid hlive
    change b + ladderContract.pages u.ram b * heapBlockSize ≤ heapBaseAddress + heapMaxHeapSize at hend
    rw [← hpage, hof] at hin
    change F.elfMemory + 7 * 2 ^ 24 + heapBlockSize ≤ b + ladderContract.pages u.ram b * heapBlockSize at hin
    have hpast : heapBaseAddress + 7 * 2 ^ 24 + heapBlockSize ≤ heapBaseAddress + heapMaxHeapSize := by omega
    exact absurd hpast (by decide)

end BasicOS

import BasicOS.Loader.Accept

/-! The bounds `elf_process_pheaders` computes, over every list of program headers.

`virtual_base_addr` starts at 0 and 0 also stands for "not set yet". A segment at address 0
therefore sets a base that the next header takes for missing and replaces, whatever its own
address: after a header with address 0 the base is again that of the headers that follow
(`base_eq_zero_iff`). So the base is the lowest address exactly when no header is at 0 or the
last one is, and it is the same for every order exactly when none is or all are
(`elfProcessPheaders_extents_iff`). The end has the same test, but there 0 is the least value
and the test changes nothing. -/
namespace BasicOS
open Lib Program

variable {mem : Memory} {p : Nat} {phdr : Elf32Phdr} {phdrs : List Elf32Phdr} {f : ElfFile}

/-! ### What the bounds are to be -/

/-- The base is the start of a segment, and no segment starts below it. -/
def StartsAt (phdrs : List Elf32Phdr) (f : ElfFile) : Prop :=
  ∃ phdr ∈ phdrs, f.virtualBaseAddr = phdr.pVaddr ∧
    f.physicalBaseAddr = elfPhdrComputePhysicalAddress f.elfMemory phdr ∧ ∀ other ∈ phdrs, phdr.pVaddr ≤ other.pVaddr

/-- The end is the end of a segment, and no segment ends above it. -/
def FinishesAt (phdrs : List Elf32Phdr) (f : ElfFile) : Prop :=
  ∃ phdr ∈ phdrs, f.virtualEndAddr = phdr.pVaddr + phdr.pFilesz ∧
    f.physicalEndAddr = u32 (f.elfMemory + phdr.pOffset + phdr.pFilesz) ∧
    ∀ other ∈ phdrs, other.pVaddr + other.pFilesz ≤ phdr.pVaddr + phdr.pFilesz

/-- The bounds are those of the segments, in memory and in the file. -/
structure Extents (phdrs : List Elf32Phdr) (f : ElfFile) : Prop where
  base : StartsAt phdrs f
  finish : FinishesAt phdrs f

/-- An ELF file read to `elfMemory`, before its program headers are processed. -/
def readElfFile (elfMemory : Nat) : ElfFile := {zeroElfFile with elfMemory := elfMemory}

/-- The file with the bounds these headers leave, in the order they come. -/
def extentsOf (elfMemory : Nat) (phdrs : List Elf32Phdr) : ElfFile :=
  phdrs.foldl elfProcessPhdrPtLoad (readElfFile elfMemory)

/-- Every order of the headers leaves the virtual bounds of `f`. -/
def OrderFree (phdrs : List Elf32Phdr) (f : ElfFile) : Prop :=
  ∀ reordered : List Elf32Phdr, reordered.Perm phdrs →
    (extentsOf f.elfMemory reordered).virtualBaseAddr = f.virtualBaseAddr ∧
    (extentsOf f.elfMemory reordered).virtualEndAddr = f.virtualEndAddr

/-! ### One header -/

/-- A header at or below the base, or after a base of 0, sets both base addresses. -/
theorem elfProcessPhdrPtLoad_sets_base (h : phdr.pVaddr ≤ f.virtualBaseAddr ∨ f.virtualBaseAddr = 0) :
    (elfProcessPhdrPtLoad f phdr).virtualBaseAddr = phdr.pVaddr ∧
      (elfProcessPhdrPtLoad f phdr).physicalBaseAddr = elfPhdrComputePhysicalAddress f.elfMemory phdr := by
  unfold elfProcessPhdrPtLoad elfPhdrComputePhysicalAddress
  simp only [ge_iff_le, if_pos h]
  split <;> exact ⟨rfl, rfl⟩

theorem elfProcessPhdrPtLoad_keeps_base (h : ¬ (phdr.pVaddr ≤ f.virtualBaseAddr ∨ f.virtualBaseAddr = 0)) :
    (elfProcessPhdrPtLoad f phdr).virtualBaseAddr = f.virtualBaseAddr ∧
      (elfProcessPhdrPtLoad f phdr).physicalBaseAddr = f.physicalBaseAddr := by
  unfold elfProcessPhdrPtLoad
  simp only [ge_iff_le, if_neg h]
  split <;> exact ⟨rfl, rfl⟩

/-- A header that ends at or above the end sets both end addresses. -/
theorem elfProcessPhdrPtLoad_sets_end (hfits : phdr.pVaddr + phdr.pFilesz < 2 ^ 32)
    (h : f.virtualEndAddr ≤ phdr.pVaddr + phdr.pFilesz) :
    (elfProcessPhdrPtLoad f phdr).virtualEndAddr = phdr.pVaddr + phdr.pFilesz ∧
      (elfProcessPhdrPtLoad f phdr).physicalEndAddr = u32 (f.elfMemory + phdr.pOffset + phdr.pFilesz) := by
  unfold elfProcessPhdrPtLoad
  rw [u32_of_lt hfits]
  simp only
  split
  · rw [if_pos (Or.inl h)]
    exact ⟨rfl, rfl⟩
  · rw [if_pos (Or.inl h)]
    exact ⟨rfl, rfl⟩

theorem elfProcessPhdrPtLoad_keeps_end (hfits : phdr.pVaddr + phdr.pFilesz < 2 ^ 32)
    (h : phdr.pVaddr + phdr.pFilesz < f.virtualEndAddr) :
    (elfProcessPhdrPtLoad f phdr).virtualEndAddr = f.virtualEndAddr ∧
      (elfProcessPhdrPtLoad f phdr).physicalEndAddr = f.physicalEndAddr := by
  have hneither : ¬ (f.virtualEndAddr ≤ phdr.pVaddr + phdr.pFilesz ∨ f.virtualEndAddr = 0) := by omega
  unfold elfProcessPhdrPtLoad
  rw [u32_of_lt hfits]
  simp only
  split <;> exact ⟨rfl, rfl⟩

/-- After a header the base is 0 exactly when the header is at 0. -/
theorem base_eq_zero_iff (f : ElfFile) (phdr : Elf32Phdr) :
    (elfProcessPhdrPtLoad f phdr).virtualBaseAddr = 0 ↔ phdr.pVaddr = 0 := by
  by_cases h : phdr.pVaddr ≤ f.virtualBaseAddr ∨ f.virtualBaseAddr = 0
  · rw [(elfProcessPhdrPtLoad_sets_base h).1]
  · rw [(elfProcessPhdrPtLoad_keeps_base h).1]
    omega

/-- A base that is not 0 is a running minimum. -/
theorem StartsAt.step (h : StartsAt phdrs f) (hset : f.virtualBaseAddr ≠ 0) (phdr : Elf32Phdr) :
    StartsAt (phdrs ++ [phdr]) (elfProcessPhdrPtLoad f phdr) := by
  obtain ⟨low, hmem, hbase, hphysical, hlow⟩ := h
  by_cases hlower : phdr.pVaddr ≤ f.virtualBaseAddr
  · obtain ⟨hvirtual, haddr⟩ := elfProcessPhdrPtLoad_sets_base (Or.inl hlower)
    refine ⟨phdr, by simp, hvirtual, ?_, ?_⟩
    · rw [haddr, elfProcessPhdrPtLoad_elfMemory]
    · intro other hother
      rcases List.mem_append.mp hother with hold | hnew
      · exact (hbase ▸ hlower).trans (hlow other hold)
      · rw [List.mem_singleton.mp hnew]
  · obtain ⟨hvirtual, haddr⟩ := elfProcessPhdrPtLoad_keeps_base (not_or.mpr ⟨hlower, hset⟩)
    refine ⟨low, List.mem_append_left _ hmem, hvirtual.trans hbase, ?_, ?_⟩
    · rw [haddr, hphysical, elfProcessPhdrPtLoad_elfMemory]
    · intro other hother
      rcases List.mem_append.mp hother with hold | hnew
      · exact hlow other hold
      · rw [List.mem_singleton.mp hnew]
        omega

/-- A header at 0 is the lowest after any others. -/
theorem StartsAt.of_zero (h : phdr.pVaddr = 0) (phdrs : List Elf32Phdr) (f : ElfFile) :
    StartsAt (phdrs ++ [phdr]) (elfProcessPhdrPtLoad f phdr) := by
  obtain ⟨hvirtual, haddr⟩ := @elfProcessPhdrPtLoad_sets_base phdr f (Or.inl (by omega))
  refine ⟨phdr, by simp, hvirtual, ?_, ?_⟩
  · rw [haddr, elfProcessPhdrPtLoad_elfMemory]
  · intro other _
    omega

/-- The end is a running maximum. -/
theorem FinishesAt.step (h : FinishesAt phdrs f) (hfits : phdr.pVaddr + phdr.pFilesz < 2 ^ 32) :
    FinishesAt (phdrs ++ [phdr]) (elfProcessPhdrPtLoad f phdr) := by
  obtain ⟨high, hmem, hend, hphysical, hhigh⟩ := h
  by_cases hhigher : f.virtualEndAddr ≤ phdr.pVaddr + phdr.pFilesz
  · obtain ⟨hvirtual, haddr⟩ := elfProcessPhdrPtLoad_sets_end hfits hhigher
    refine ⟨phdr, by simp, hvirtual, ?_, ?_⟩
    · rw [haddr, elfProcessPhdrPtLoad_elfMemory]
    · intro other hother
      rcases List.mem_append.mp hother with hold | hnew
      · exact (hhigh other hold).trans (hend ▸ hhigher)
      · rw [List.mem_singleton.mp hnew]
  · obtain ⟨hvirtual, haddr⟩ := elfProcessPhdrPtLoad_keeps_end hfits (Nat.lt_of_not_le hhigher)
    refine ⟨high, List.mem_append_left _ hmem, hvirtual.trans hend, ?_, ?_⟩
    · rw [haddr, hphysical, elfProcessPhdrPtLoad_elfMemory]
    · intro other hother
      rcases List.mem_append.mp hother with hold | hnew
      · exact hhigh other hold
      · rw [List.mem_singleton.mp hnew]
        omega

/-! ### All headers -/

theorem extentsOf_concat (p : Nat) (phdrs : List Elf32Phdr) (phdr : Elf32Phdr) :
    extentsOf p (phdrs ++ [phdr]) = elfProcessPhdrPtLoad (extentsOf p phdrs) phdr := by
  unfold extentsOf
  rw [List.foldl_append]
  rfl

@[simp] theorem extentsOf_elfMemory (p : Nat) (phdrs : List Elf32Phdr) : (extentsOf p phdrs).elfMemory = p := by
  induction phdrs using List.reverseRecOn with
  | nil => rfl
  | append_singleton phdrs phdr ih => rw [extentsOf_concat, elfProcessPhdrPtLoad_elfMemory, ih]

/-- The base is 0 exactly when the last header is at 0. -/
theorem extentsOf_base_eq_zero_iff (p : Nat) (hsome : phdrs ≠ []) :
    (extentsOf p phdrs).virtualBaseAddr = 0 ↔ (phdrs.getLast hsome).pVaddr = 0 := by
  obtain ⟨before, last, rfl⟩ := (List.eq_nil_or_concat' phdrs).resolve_left hsome
  rw [extentsOf_concat, base_eq_zero_iff, List.getLast_concat]

theorem extentsOf_singleton (p : Nat) (phdr : Elf32Phdr) :
    extentsOf p [phdr] = elfProcessPhdrPtLoad (readElfFile p) phdr := rfl

/-- The first header sets the base. -/
theorem startsAt_singleton (p : Nat) (phdr : Elf32Phdr) : StartsAt [phdr] (extentsOf p [phdr]) := by
  obtain ⟨hvirtual, haddr⟩ := @elfProcessPhdrPtLoad_sets_base phdr (readElfFile p) (Or.inr rfl)
  rw [extentsOf_singleton]
  refine ⟨phdr, List.mem_singleton_self _, hvirtual, ?_, ?_⟩
  · rw [haddr, elfProcessPhdrPtLoad_elfMemory]
  · intro other hother
    rw [List.mem_singleton.mp hother]

theorem finishesAt_singleton (p : Nat) (hfits : phdr.pVaddr + phdr.pFilesz < 2 ^ 32) :
    FinishesAt [phdr] (extentsOf p [phdr]) := by
  obtain ⟨hvirtual, haddr⟩ := @elfProcessPhdrPtLoad_sets_end phdr (readElfFile p) hfits (Nat.zero_le _)
  rw [extentsOf_singleton]
  refine ⟨phdr, List.mem_singleton_self _, hvirtual, ?_, ?_⟩
  · rw [haddr, elfProcessPhdrPtLoad_elfMemory]
  · intro other hother
    rw [List.mem_singleton.mp hother]

theorem startsAt_of_nonzero (p : Nat) (hsome : phdrs ≠ []) (h : ∀ phdr ∈ phdrs, phdr.pVaddr ≠ 0) :
    StartsAt phdrs (extentsOf p phdrs) := by
  induction phdrs using List.reverseRecOn with
  | nil => exact absurd rfl hsome
  | append_singleton before last ih =>
    rcases List.eq_nil_or_concat' before with rfl | ⟨earlier, previous, rfl⟩
    · exact startsAt_singleton p last
    · have hbefore : ∀ phdr ∈ earlier ++ [previous], phdr.pVaddr ≠ 0 :=
        fun phdr hmem => h phdr (List.mem_append_left _ hmem)
      have hset : (extentsOf p (earlier ++ [previous])).virtualBaseAddr ≠ 0 := by
        rw [extentsOf_concat]
        exact mt (base_eq_zero_iff _ _).mp (hbefore previous (by simp))
      rw [extentsOf_concat p (earlier ++ [previous])]
      exact (ih (by simp) hbefore).step hset last

/-- The base is right if no header is at 0, or the last one is, and only then. -/
theorem startsAt_iff (p : Nat) (hsome : phdrs ≠ []) : StartsAt phdrs (extentsOf p phdrs) ↔
    (∀ phdr ∈ phdrs, phdr.pVaddr ≠ 0) ∨ (phdrs.getLast hsome).pVaddr = 0 := by
  constructor
  · rintro ⟨low, -, hbase, -, hlow⟩
    rw [← extentsOf_base_eq_zero_iff p hsome, or_iff_not_imp_right]
    intro hset phdr hmem hzero
    have := hlow phdr hmem
    omega
  · rintro (hnone | hlast)
    · exact startsAt_of_nonzero p hsome hnone
    · obtain ⟨before, last, rfl⟩ := (List.eq_nil_or_concat' phdrs).resolve_left hsome
      rw [List.getLast_concat] at hlast
      rw [extentsOf_concat]
      exact StartsAt.of_zero hlast before _

theorem finishesAt_extentsOf (p : Nat) (hsome : phdrs ≠ []) (hfits : ∀ phdr ∈ phdrs, phdr.pVaddr + phdr.pFilesz < 2 ^ 32) :
    FinishesAt phdrs (extentsOf p phdrs) := by
  induction phdrs using List.reverseRecOn with
  | nil => exact absurd rfl hsome
  | append_singleton before last ih =>
    have hlast := hfits last (by simp)
    by_cases hfirst : before = []
    · subst hfirst
      exact finishesAt_singleton p hlast
    · rw [extentsOf_concat]
      exact (ih hfirst fun phdr hmem => hfits phdr (List.mem_append_left _ hmem)).step hlast

/-! ### Other orders -/

theorem StartsAt.base_eq {others : List Elf32Phdr} {g : ElfFile} (h : StartsAt phdrs f)
    (h' : StartsAt others g) (hperm : others.Perm phdrs) : g.virtualBaseAddr = f.virtualBaseAddr := by
  obtain ⟨low, hmem, hbase, -, hlow⟩ := h
  obtain ⟨low', hmem', hbase', -, hlow'⟩ := h'
  rw [hbase, hbase']
  exact Nat.le_antisymm (hlow' low (hperm.mem_iff.mpr hmem)) (hlow low' (hperm.mem_iff.mp hmem'))

theorem FinishesAt.end_eq {others : List Elf32Phdr} {g : ElfFile} (h : FinishesAt phdrs f) (h' : FinishesAt others g)
    (hperm : others.Perm phdrs) : g.virtualEndAddr = f.virtualEndAddr := by
  obtain ⟨high, hmem, hend, -, hhigh⟩ := h
  obtain ⟨high', hmem', hend', -, hhigh'⟩ := h'
  rw [hend, hend']
  exact Nat.le_antisymm (hhigh high' (hperm.mem_iff.mp hmem')) (hhigh' high (hperm.mem_iff.mpr hmem))

/-- Any header can come last. -/
theorem exists_perm_last (hmem : phdr ∈ phdrs) : ∃ before, (before ++ [phdr]).Perm phdrs := by
  obtain ⟨before, after, rfl⟩ := List.append_of_mem hmem
  refine ⟨before ++ after, ?_⟩
  rw [List.append_assoc]
  exact List.Perm.append_left before List.perm_append_comm

theorem orderFree_iff (p : Nat) (hsome : phdrs ≠ []) (hfits : ∀ phdr ∈ phdrs, phdr.pVaddr + phdr.pFilesz < 2 ^ 32) :
    OrderFree phdrs (extentsOf p phdrs) ↔
      (∀ phdr ∈ phdrs, phdr.pVaddr ≠ 0) ∨ ∀ phdr ∈ phdrs, phdr.pVaddr = 0 := by
  unfold OrderFree
  rw [extentsOf_elfMemory]
  constructor
  · intro hfree
    -- the last header decides whether the base is 0, and any header can be the last
    have hall : ∀ phdr ∈ phdrs, phdr.pVaddr = 0 ↔ (extentsOf p phdrs).virtualBaseAddr = 0 := by
      intro phdr hmem
      obtain ⟨before, hperm⟩ := exists_perm_last hmem
      rw [← (hfree _ hperm).1, extentsOf_concat, base_eq_zero_iff]
    by_cases hzero : (extentsOf p phdrs).virtualBaseAddr = 0
    · exact Or.inr fun phdr hmem => (hall phdr hmem).mpr hzero
    · exact Or.inl fun phdr hmem => mt (hall phdr hmem).mp hzero
  · intro hsame reordered hperm
    have hsome' : reordered ≠ [] := fun hnil => hsome (hperm.symm.trans (List.Perm.of_eq hnil)).eq_nil
    have hends := finishesAt_extentsOf p hsome' fun phdr hmem => hfits phdr (hperm.mem_iff.mp hmem)
    refine ⟨?_, (finishesAt_extentsOf p hsome hfits).end_eq hends hperm⟩
    rcases hsame with hnone | hzero
    · exact (startsAt_of_nonzero p hsome hnone).base_eq
        (startsAt_of_nonzero p hsome' fun phdr hmem => hnone phdr (hperm.mem_iff.mp hmem)) hperm
    · rw [(extentsOf_base_eq_zero_iff p hsome).mpr (hzero _ (List.getLast_mem hsome)),
        (extentsOf_base_eq_zero_iff p hsome').mpr (hzero _ (hperm.mem_iff.mp (List.getLast_mem hsome')))]

/-! ### The loop -/

/-- The loop over headers that are all to be loaded is the fold. -/
theorem elfProcessPheadersFrom_load (n i : Nat) (f : ElfFile)
    (hload : ∀ phdr ∈ (List.range' i n).map (elfProgramHeader mem f.elfMemory), phdr.pType = ptLoad) :
    elfProcessPheadersFrom mem n i f =
      (0, ((List.range' i n).map (elfProgramHeader mem f.elfMemory)).foldl elfProcessPhdrPtLoad f) := by
  induction n generalizing i f with
  | zero => rfl
  | succ n ih =>
    rw [List.range'_succ, List.map_cons] at hload ⊢
    obtain ⟨hfirst, hrest⟩ := List.forall_mem_cons.mp hload
    rw [List.foldl_cons]
    unfold elfProcessPheadersFrom elfProcessPheader
    rw [if_pos hfirst]
    simp only [Int.lt_irrefl, if_false]
    have hmemory := elfProcessPhdrPtLoad_elfMemory f (elfProgramHeader mem f.elfMemory i)
    rw [ih (i + 1) _ (by rw [hmemory]; exact hrest), hmemory]

theorem elfProcessPheaders_load (hload : ∀ phdr ∈ headersFrom mem p 0, phdr.pType = ptLoad) :
    elfProcessPheaders mem (readElfFile p) = (0, extentsOf p (headersFrom mem p 0)) :=
  elfProcessPheadersFrom_load (ePhnum mem p) 0 (readElfFile p) hload

/-- **The bounds of a file that is all segments.** The headers are processed without an error.
The bounds are the extents of the segments exactly when no segment is at address 0 or the last
one is, and every order of the headers leaves the same virtual bounds exactly when no segment
is at address 0 or all are. -/
theorem elfProcessPheaders_extents_iff (mem : Memory) (p : Nat)
    (hload : ∀ phdr ∈ headersFrom mem p 0, phdr.pType = ptLoad) (hsome : headersFrom mem p 0 ≠ [])
    (hfits : ∀ phdr ∈ headersFrom mem p 0, phdr.pVaddr + phdr.pFilesz < 2 ^ 32) :
    (elfProcessPheaders mem (readElfFile p)).1 = 0 ∧
    (Extents (headersFrom mem p 0) (elfProcessPheaders mem (readElfFile p)).2 ↔
      (∀ phdr ∈ headersFrom mem p 0, phdr.pVaddr ≠ 0) ∨ ((headersFrom mem p 0).getLast hsome).pVaddr = 0) ∧
    (OrderFree (headersFrom mem p 0) (elfProcessPheaders mem (readElfFile p)).2 ↔
      (∀ phdr ∈ headersFrom mem p 0, phdr.pVaddr ≠ 0) ∨ ∀ phdr ∈ headersFrom mem p 0, phdr.pVaddr = 0) := by
  rw [elfProcessPheaders_load hload]
  refine ⟨rfl, ?_, orderFree_iff p hsome hfits⟩
  rw [← startsAt_iff p hsome]
  exact ⟨fun h => h.base, fun h => ⟨h, finishesAt_extentsOf p hsome hfits⟩⟩

/-! ### A segment at 0 -/

/-- The bytes of a word. -/
def wordBytes (v : Nat) : List UInt8 :=
  [UInt8.ofNat v, UInt8.ofNat (v / 2 ^ 8), UInt8.ofNat (v / 2 ^ 16), UInt8.ofNat (v / 2 ^ 24)]

/-- A program header for four bytes of the file, to be loaded at `vaddr`. -/
def loadHeader (offset vaddr : Nat) : List UInt8 :=
  wordBytes ptLoad ++ wordBytes offset ++ wordBytes vaddr ++ wordBytes vaddr ++ wordBytes 4 ++ wordBytes 4 ++
    wordBytes 5 ++ wordBytes 0x1000

/-- An executable with two segments of four bytes. -/
def twoSegmentFile (first second : Nat) : List UInt8 :=
  [0x7F, 0x45, 0x4C, 0x46, 1, 1, 1, 0, 0, 0, 0, 0, 0, 0, 0, 0] ++ [2, 0, 3, 0] ++ wordBytes 1 ++ wordBytes 0x400000 ++
    wordBytes 52 ++ wordBytes 0 ++ wordBytes 0 ++ [52, 0, 32, 0, 2, 0, 0, 0, 0, 0, 0, 0] ++
    loadHeader 116 first ++ loadHeader 120 second ++ wordBytes 0 ++ wordBytes 0

/-- The file read to the start of the heap. -/
def twoSegments (first second : Nat) : Memory := store (fun _ => 0) 0x1000000 (twoSegmentFile first second)

theorem headersFrom_twoSegments :
    headersFrom (twoSegments 0 0x400000) 0x1000000 0 = [⟨ptLoad, 116, 0, 4, 4, 5⟩, ⟨ptLoad, 120, 0x400000, 4, 4, 5⟩] ∧
    headersFrom (twoSegments 0x400000 0x401000) 0x1000000 0 =
      [⟨ptLoad, 116, 0x400000, 4, 4, 5⟩, ⟨ptLoad, 120, 0x401000, 4, 4, 5⟩] := by decide +kernel

/-- The bounds of a file with segments at 0x400000 and 0x401000. -/
theorem elfProcessPheaders_two_segments :
    (elfProcessPheaders (twoSegments 0x400000 0x401000) (readElfFile 0x1000000)).1 = 0 ∧
    Extents (headersFrom (twoSegments 0x400000 0x401000) 0x1000000 0)
      (elfProcessPheaders (twoSegments 0x400000 0x401000) (readElfFile 0x1000000)).2 ∧
    OrderFree (headersFrom (twoSegments 0x400000 0x401000) 0x1000000 0)
      (elfProcessPheaders (twoSegments 0x400000 0x401000) (readElfFile 0x1000000)).2 := by
  have hnone : ∀ phdr ∈ headersFrom (twoSegments 0x400000 0x401000) 0x1000000 0, phdr.pVaddr ≠ 0 := by
    rw [headersFrom_twoSegments.2]
    decide
  obtain ⟨hres, hextents, horder⟩ := elfProcessPheaders_extents_iff (twoSegments 0x400000 0x401000) 0x1000000
    (by rw [headersFrom_twoSegments.2]; decide) (by rw [headersFrom_twoSegments.2]; decide)
    (by rw [headersFrom_twoSegments.2]; decide)
  exact ⟨hres, hextents.mpr (Or.inl hnone), horder.mpr (Or.inl hnone)⟩

/-- The base of the file with segments at 0 and 0x400000 comes out as 0x400000, where the second
starts, and the physical base as the place of its bytes. -/
theorem elfProcessPheaders_zero_first :
    (elfProcessPheaders (twoSegments 0 0x400000) (readElfFile 0x1000000)) =
      (0, ⟨0x1000000, 0x400000, 0x400004, 0x1000000 + 120, 0x1000000 + 124⟩) ∧
    ¬ Extents (headersFrom (twoSegments 0 0x400000) 0x1000000 0)
      (elfProcessPheaders (twoSegments 0 0x400000) (readElfFile 0x1000000)).2 := by
  have hbounds : elfProcessPheaders (twoSegments 0 0x400000) (readElfFile 0x1000000) =
      (0, ⟨0x1000000, 0x400000, 0x400004, 0x1000000 + 120, 0x1000000 + 124⟩) := by
    rw [elfProcessPheaders_load (by rw [headersFrom_twoSegments.1]; decide), headersFrom_twoSegments.1]
    decide
  refine ⟨hbounds, ?_⟩
  rw [hbounds, headersFrom_twoSegments.1]
  rintro ⟨⟨low, -, hbase, -, hlow⟩, -⟩
  have : low.pVaddr ≤ 0 := hlow ⟨ptLoad, 116, 0, 4, 4, 5⟩ (by simp)
  simp only at hbase
  omega

end BasicOS

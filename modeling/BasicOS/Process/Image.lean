import BasicOS.Paging.Walk
import BasicOS.Process.Residents
import BasicOS.Loader.Accept

/-! An ELF image as it is mapped.

The file stays in its block, and `process_map_elf` maps the pages of the block: the page of
`p_vaddr` to the page of `p_offset`, and on from there until the end of the segment in the
block, rounded up. So a page holds what the file has around it, and the pages of a later
program header, and at last those of the stack, replace earlier ones.

`imagePages` lists what is mapped, and a process sees its segments as its file has them when
the last page mapped for each of their bytes shows that byte (`elfMapped_iff`). So it is for
segments that `process_map_elf` can use where they are (`SegmentInPlace`): `p_vaddr` and
`p_offset` agree modulo the page size, the block has zeroes where the file says so, and
nothing that is mapped later moves one of their pages (`elfMapped_in_place`). It is not so
where `p_vaddr` and `p_offset` differ modulo the page size (`elf_shifted`). -/
namespace BasicOS
open Lib Program

/-! ### Segments of a file -/

def ePhentsize (mem : Memory) (header : Nat) : Nat := read16 mem (header + 42)

/-- Program header `i`, where the ELF header says it is. -/
def segmentHeader (file : List UInt8) (i : Nat) : Elf32Phdr :=
  elf32PhdrAt (fileMemory file) (ePhoff (fileMemory file) 0 + i * ePhentsize (fileMemory file) 0)

/-- The file says that its program has the byte `b` at `v`; `none` is a byte past its end. -/
inductive SegmentByte (file : List UInt8) : Nat → Option UInt8 → Prop where
  | mk (i k : Nat) (header : i < ePhnum (fileMemory file) 0)
      (inFile : ePhoff (fileMemory file) 0 + i * ePhentsize (fileMemory file) 0 + sizeofElf32Phdr ≤ file.length)
      (load : (segmentHeader file i).pType = ptLoad) (memsz : k < (segmentHeader file i).pMemsz) :
      SegmentByte file (u32 ((segmentHeader file i).pVaddr + k))
        (if k < (segmentHeader file i).pFilesz then file[(segmentHeader file i).pOffset + k]? else some 0)

/-- The directory shows the segments of the file. -/
def ElfMapped (m : Memory) (directory : Nat) (file : List UInt8) : Prop :=
  ∀ v b, SegmentByte file v b → Present m directory v ∧ some (userView m directory v) = b

/-! ### What is mapped -/

/-- The pages mapped for an image with these program headers and for the stack, in order. -/
def imagePages (image : Nat) (phdrs : List Elf32Phdr) (stack : Nat) : List (Nat × Nat) :=
  phdrs.flatMap (segmentPages image) ++
    pagesFrom bkeTaskProgramVirtualStackAddrEnd stack (bkeTaskUserStackSize / pagingPageSize)

/-- Every byte of a segment is in memory where the last page mapped for its address has it. -/
def ElfPlaced (m : Memory) (pages : List (Nat × Nat)) (file : List UInt8) : Prop :=
  ∀ v b, SegmentByte file v b → some (m (translation pages.reverse v)) = b

/-- The program headers that `process_map_elf` looks for are in the file. -/
structure HeadersInFile (file : List UInt8) : Prop where
  header : 46 ≤ file.length
  present : elfHasProgramHeader (fileMemory file) 0
  headers : ePhoff (fileMemory file) 0 + ePhnum (fileMemory file) 0 * sizeofElf32Phdr ≤ file.length

def fileHeaders (file : List UInt8) : List Elf32Phdr :=
  (List.range (ePhnum (fileMemory file) 0)).map (fileHeader file)

/-- Program header `i` is in the file, and is for some bytes of the program. -/
structure Segment (file : List UInt8) (i : Nat) : Prop where
  header : i < ePhnum (fileMemory file) 0
  inFile : ePhoff (fileMemory file) 0 + i * ePhentsize (fileMemory file) 0 + sizeofElf32Phdr ≤ file.length
  load : (segmentHeader file i).pType = ptLoad
  memsz : 0 < (segmentHeader file i).pMemsz

/-- The segment can be used in the block of the file, which is `size` bytes from `image` on, and nothing that is
mapped after it, with the stack at last, maps one of its pages elsewhere. -/
structure SegmentInPlace (mem : Memory) (image size stack : Nat) (file : List UInt8) (i : Nat) : Prop where
  headers : HeadersInFile file
  stride : i = 0 ∨ ePhentsize (fileMemory file) 0 = sizeofElf32Phdr
  offset : (segmentHeader file i).pVaddr % pagingPageSize = (segmentHeader file i).pOffset % pagingPageSize
  inBlock : (segmentHeader file i).pOffset + (segmentHeader file i).pMemsz ≤ size
  filesz : ∀ k, k < (segmentHeader file i).pMemsz → k < (segmentHeader file i).pFilesz →
    (segmentHeader file i).pOffset + k < file.length
  zeroes : ∀ k, (segmentHeader file i).pFilesz ≤ k → k < (segmentHeader file i).pMemsz →
    mem (image + ((segmentHeader file i).pOffset + k)) = 0
  kept : ∀ m ∈ imagePages image ((fileHeaders file).drop (i + 1)) stack, ∀ k, k < (segmentHeader file i).pMemsz →
    m.1 = pagingAlignToLowerPageAddr (u32 ((segmentHeader file i).pVaddr + k)) →
    m.2 = pagingAlignToLowerPageAddr (image + ((segmentHeader file i).pOffset + k))

/-- The file as it was read. -/
def fileRead (vol : Volume) (record : FatDirectoryItem) : List UInt8 :=
  (List.range record.fileSize).map fun i => (fileImage vol record).2.getD i 0

variable {D : DirectoryBlocks} {entry : Nat → Nat} {mem m : Memory} {history : List (Nat × Nat)} {v : Nat}

/-! ### The words of an image -/

theorem segmentRights_bits (phdr : Elf32Phdr) : segmentRights phdr < pagingPageSize ∧ segmentRights phdr % 2 = 1 := by
  unfold segmentRights
  split <;> decide

theorem Follows.mapSegments (h : Follows entry history) (image : Nat) (phdrs : List Elf32Phdr) :
    Follows (mapSegments image entry phdrs) ((phdrs.flatMap (segmentPages image)).reverse ++ history) := by
  induction phdrs generalizing entry history with
  | nil => exact h
  | cons phdr phdrs ih =>
    rw [List.flatMap_cons, List.reverse_append, List.append_assoc]
    refine ih (h.mapEntries (segmentRights_bits phdr).1 (pagesFrom_aligned ?_ ?_))
    · exact pagingAlignToLowerPageAddr_aligned _
    · exact pagingAlignToLowerPageAddr_aligned _

/-- The words of an image and a stack follow its pages. -/
theorem follows_image {stack : Nat} (hstack : stack % pagingPageSize = 0) (image : Nat) (phdrs : List Elf32Phdr) :
    Follows (stackEntries (mapSegments image newEntry phdrs) stack) (imagePages image phdrs stack).reverse := by
  have hsegments := (follows_identity (show pagingMasksIsPresent ||| pagingMasksAccessAll < 2 ^ 8 by decide)).mapSegments
    image phdrs
  rw [List.append_nil] at hsegments
  unfold imagePages
  rw [List.reverse_append]
  exact hsegments.mapEntries (by decide) (pagesFrom_aligned (by decide) hstack)

theorem mapEntries_odd {bits : Nat} (hbits : bits % 2 = 1) {pages : List (Nat × Nat)}
    (hpages : ∀ p ∈ pages, p.2 % pagingPageSize = 0) (hentry : ∀ k, entry k % 2 = 1) (k : Nat) :
    mapEntries entry bits pages k % 2 = 1 := by
  rcases mapEntries_apply entry bits pages k with ⟨p, hp, _, heq⟩ | ⟨_, heq⟩
  · have halign := hpages p hp
    rw [heq]
    simp only [pagingPageSize] at halign
    omega
  · rw [heq]
    exact hentry k

/-- Every word of an image is present. -/
theorem image_odd {stack : Nat} (hstack : stack % pagingPageSize = 0) (image : Nat) (phdrs : List Elf32Phdr) (k : Nat) :
    stackEntries (mapSegments image newEntry phdrs) stack k % 2 = 1 := by
  have hsegments : ∀ (phdrs : List Elf32Phdr) (entry : Nat → Nat), (∀ k, entry k % 2 = 1) →
      ∀ k, mapSegments image entry phdrs k % 2 = 1 := by
    intro phdrs
    induction phdrs with
    | nil => exact fun entry h => h
    | cons phdr phdrs ih =>
      intro entry h
      refine ih _ (mapEntries_odd (segmentRights_bits phdr).2 (fun p hp => ?_) h)
      exact (pagesFrom_aligned (pagingAlignToLowerPageAddr_aligned _) (pagingAlignToLowerPageAddr_aligned _) p hp).2.1
  refine mapEntries_odd (by decide) (fun p hp => (pagesFrom_aligned (by decide) hstack p hp).2.1) ?_ k
  refine hsegments phdrs newEntry fun k => ?_
  show (k * 4096 + 5) % 2 = 1
  omega

/-- A segment whose addresses and offsets agree in a page is mapped to its bytes. -/
theorem segmentPages_inPlace {image k : Nat} {phdr : Elf32Phdr} (himage : image % pagingPageSize = 0)
    (hoffset : phdr.pVaddr % pagingPageSize = phdr.pOffset % pagingPageSize)
    (hfits : image + (phdr.pOffset + phdr.pMemsz) + pagingPageSize ≤ 2 ^ 32) (hk : k < phdr.pMemsz) :
    (∃ m ∈ segmentPages image phdr, m.1 = pagingAlignToLowerPageAddr (u32 (phdr.pVaddr + k))) ∧
      ∀ m ∈ segmentPages image phdr, m.1 = pagingAlignToLowerPageAddr (u32 (phdr.pVaddr + k)) →
        m.2 = pagingAlignToLowerPageAddr (image + (phdr.pOffset + k)) := by
  have hphysical : elfPhdrComputePhysicalAddress image phdr = image + phdr.pOffset := u32_of_lt (by omega)
  have hend : u32 (image + phdr.pOffset + phdr.pMemsz) = image + (phdr.pOffset + phdr.pMemsz) := by
    rw [Nat.add_assoc]
    exact u32_of_lt (by simp only [pagingPageSize] at hfits; omega)
  obtain ⟨hle, hlt, halign⟩ := pagingAlignAddress_of_le hfits
  unfold segmentPages pagesFrom
  simp only [hphysical, hend, List.mem_map, List.mem_range]
  generalize pagingAlignAddress (image + (phdr.pOffset + phdr.pMemsz)) = last at *
  simp only [pagingAlignToLowerPageAddr, u32, pagingPageSize] at *
  constructor
  · refine ⟨_, ⟨(phdr.pVaddr % 4096 + k) / 4096, ?_, rfl⟩, ?_⟩
    · omega
    · simp only
      omega
  · rintro m ⟨n, hn, rfl⟩ hpage
    simp only at hpage ⊢
    omega

/-- The pages of a header, with what is mapped after them and before them. -/
theorem imagePages_split (image : Nat) (phdrs : List Elf32Phdr) (stack : Nat) {i : Nat} {phdr : Elf32Phdr}
    (hi : phdrs[i]? = some phdr) : imagePages image phdrs stack =
      (phdrs.take i).flatMap (segmentPages image) ++
        (segmentPages image phdr ++ imagePages image (phdrs.drop (i + 1)) stack) := by
  obtain ⟨hlt, rfl⟩ := List.getElem?_eq_some_iff.mp hi
  unfold imagePages
  nth_rewrite 1 [← List.take_append_drop i phdrs]
  rw [List.flatMap_append, List.drop_eq_getElem_cons hlt, List.flatMap_cons]
  simp only [List.append_assoc]

/-- Every byte of a segment in place is found where the file has it. -/
theorem SegmentInPlace.translation {image size stack : Nat} {file : List UInt8} {i k : Nat} (h : Segment file i)
    (hplace : SegmentInPlace mem image size stack file i) (himage : image % pagingPageSize = 0)
    (hfits : image + size + pagingPageSize ≤ 2 ^ 32) (hk : k < (segmentHeader file i).pMemsz) :
    translation (imagePages image (fileHeaders file) stack).reverse (u32 ((segmentHeader file i).pVaddr + k)) =
      image + ((segmentHeader file i).pOffset + k) := by
  have hheader : fileHeader file i = segmentHeader file i := by
    unfold fileHeader segmentHeader
    rcases hplace.stride with rfl | hstride
    · rw [Nat.zero_mul, Nat.zero_mul]
    · rw [hstride]
  have hat : (fileHeaders file)[i]? = some (segmentHeader file i) := by
    unfold fileHeaders
    rw [List.getElem?_map, List.getElem?_range h.header, ← hheader]
    rfl
  have hinBlock := hplace.inBlock
  obtain ⟨⟨m, hm, hpage⟩, hown⟩ := segmentPages_inPlace himage hplace.offset (by omega) hk
  rw [imagePages_split image _ stack hat, List.reverse_append]
  have hlatest := @translation_latest
    (segmentPages image (segmentHeader file i) ++ imagePages image ((fileHeaders file).drop (i + 1)) stack).reverse
    ((fileHeaders file).take i |>.flatMap (segmentPages image)).reverse (u32 ((segmentHeader file i).pVaddr + k))
    (pagingAlignToLowerPageAddr (image + ((segmentHeader file i).pOffset + k)))
    ⟨m, List.mem_reverse.mpr (List.mem_append_left _ hm), hpage⟩ fun m hm hpage => by
      rcases List.mem_append.mp (List.mem_reverse.mp hm) with hm | hm
      · exact hown m hm hpage
      · exact hplace.kept m hm k hk hpage
  rw [hlatest]
  have hoffset := hplace.offset
  unfold pagingAlignToLowerPageAddr u32
  simp only [pagingPageSize] at *
  omega

/-- What a process sees where its image and its stack are mapped. -/
theorem elfMapped_of_tables {stack : Nat} (hstack : stack % pagingPageSize = 0) (image : Nat) (phdrs : List Elf32Phdr)
    (h : Tables D (stackEntries (mapSegments image newEntry phdrs) stack) mem) (file : List UInt8) :
    ElfMapped mem D.directory file ↔ ElfPlaced mem (imagePages image phdrs stack) file := by
  refine forall_congr' fun v => forall_congr' fun b => ?_
  refine ⟨fun hmapped hbyte => ?_, fun hplaced hbyte => ?_⟩
  all_goals
    have hv : v < 2 ^ 32 := by
      cases hbyte
      exact u32_lt _
    have hview := h.userView (follows_image hstack image phdrs) hv
  · rw [← hview]
    exact (hmapped hbyte).2
  · obtain ⟨hdirectory, hpage⟩ := h.pageEntry hv
    refine ⟨⟨hdirectory, ?_⟩, ?_⟩
    · rw [hpage]
      exact image_odd hstack image phdrs _
    · rw [hview]
      exact hplaced hbyte

/-! ### Loads -/

section Load

variable {H : Type} {A : Allocator H} {C : Contract A} {vol : Volume} {filename file : List UInt8} {s t : Kernel H}
  {process image stack directory : Nat} {record : FatDirectoryItem}

/-- `process` was made from the ELF file `file`, which is in the block `image`. -/
inductive ElfProcess (C : Contract A) (vol : Volume) (filename : List UInt8) (t : Kernel H) (process : Nat) :
    Nat → Nat → Nat → List UInt8 → Prop where
  | mk {P : Process} {F : ElfFile} {T : Task} {record : FatDirectoryItem} (made : t.process process = some P)
      (filetype : P.filetype = processFormatElf) (elfFile : t.elfFile P.ptr = some F)
      (task : t.taskList.tasks P.task = some T) (holds : HoldsFile C vol filename t.ram F.elfMemory record) :
      ElfProcess C vol filename t process F.elfMemory P.stack (read32 t.ram.mem T.pageDirectory) (fileRead vol record)

theorem length_fileRead (vol : Volume) (record : FatDirectoryItem) : (fileRead vol record).length = record.fileSize := by
  unfold fileRead
  rw [List.length_map, List.length_range]

theorem HoldsFile.elfImage {r : Ram H} {p : Nat} (h : HoldsFile C vol filename r p record) (hvalid : C.Valid r.heap) :
    ElfImage r.mem p (fileRead vol record) := by
  obtain ⟨_, hbase, hend⟩ := C.placed hvalid h.live
  have hroom := h.room
  change p + C.pages r p * heapBlockSize ≤ _ at hend
  refine ⟨fun i hi => ?_, ?_, hbase⟩
  · rw [length_fileRead] at hi
    rw [h.bytes i hi]
    simp [fileMemory, fileRead, List.getD_eq_getElem?_getD, hi]
  · rw [length_fileRead]
    simp only [heapBaseAddress, heapMaxHeapSize] at hend
    omega

/-- A program header of the file is the one in memory. -/
theorem ElfImage.header_eq {p i : Nat} (h : ElfImage mem p file) (hfile : HeadersInFile file)
    (hi : i < ePhnum (fileMemory file) 0) : elfProgramHeader mem p i = fileHeader file i := by
  have hheader := hfile.header
  have hheaders := hfile.headers
  have hfits := h.fits
  have hhas : elfHasProgramHeader mem p := by
    rw [← h.hasProgramHeader (by omega)]
    exact hfile.present
  have haddr : u32 (elfPheader mem p + i * sizeofElf32Phdr) =
      p + (ePhoff (fileMemory file) 0 + i * sizeofElf32Phdr) := by
    unfold elfPheader
    rw [if_pos hhas, ← h.phoff (by omega)]
    simp only [u32, sizeofElf32Phdr] at *
    omega
  have hin : ePhoff (fileMemory file) 0 + i * sizeofElf32Phdr + sizeofElf32Phdr ≤ file.length := by
    simp only [sizeofElf32Phdr] at *
    omega
  have hfield : ∀ c, c + 4 ≤ sizeofElf32Phdr →
      read32 mem (u32 (p + (ePhoff (fileMemory file) 0 + i * sizeofElf32Phdr) + c)) =
        read32 (fileMemory file) (u32 (ePhoff (fileMemory file) 0 + i * sizeofElf32Phdr + c)) := by
    intro c hc
    rw [u32_of_lt (by omega), u32_of_lt (by omega), Nat.add_assoc, h.read32_eq (by omega)]
  have hfirst : read32 mem (p + (ePhoff (fileMemory file) 0 + i * sizeofElf32Phdr)) =
      read32 (fileMemory file) (ePhoff (fileMemory file) 0 + i * sizeofElf32Phdr) :=
    (h.read32_eq (Nat.le_trans (Nat.add_le_add_left (by decide) _) hin)).symm
  unfold elfProgramHeader phdrIn fileHeader elf32PhdrAt
  rw [haddr, hfield 4 (by decide), hfield 8 (by decide), hfield 16 (by decide), hfield 20 (by decide),
    hfield 24 (by decide), hfirst]

/-- The headers in the file's block are the file's. -/
theorem ElfImage.headersFrom {p : Nat} (h : ElfImage mem p file) (hfile : HeadersInFile file) :
    BasicOS.headersFrom mem p 0 = fileHeaders file := by
  have hheader := hfile.header
  unfold BasicOS.headersFrom fileHeaders
  rw [← h.phnum (by omega), Nat.sub_zero, ← List.range_eq_range']
  exact List.map_congr_left fun i hi => h.header_eq hfile (List.mem_range.mp hi)

/-- Changes elsewhere leave the headers in the file's block. -/
theorem ElfImage.stableHeaders {p : Nat} (h : ElfImage mem p file) (hfile : HeadersInFile file)
    (hapart : ∀ i, i < file.length → ¬ D.InTables (p + i)) : StableHeaders D p mem := by
  intro m hsame
  have h' : ElfImage m p file := ⟨fun i hi => (hsame _ (hapart i hi)).trans (h.bytes i hi), h.fits, h.above⟩
  have hheader := hfile.header
  have hnum : ePhnum m p = ePhnum mem p := by rw [← h'.phnum (by omega), h.phnum (by omega)]
  have hphdrs : elfPheader m p = elfPheader mem p := by
    unfold elfPheader elfHasProgramHeader
    rw [← h'.phoff (by omega), h.phoff (by omega)]
  refine ⟨hnum, hphdrs, fun i hi => ?_⟩
  rw [← h.phnum (by omega)] at hi
  rw [h'.header_eq hfile hi, h.header_eq hfile hi]

/-- A file in a block that was taken beside the tables of a directory is outside them. -/
theorem HoldsFile.outside_tables {r₀ r : Ram H} {addr chunk : Nat} {ys : List Nat}
    (h : HoldsFile C vol filename r addr record) (htaken : Taken C r₀ r (D.blocks chunk ++ ys)) (haddr : addr ∈ ys) (i : Nat)
    (hi : i < (fileRead vol record).length) : ¬ D.InTables (addr + i) := by
  rintro ⟨j, hj, hheld⟩
  rw [length_fileRead] at hi
  have hmem : D.tables j ∈ D.blocks chunk := DirectoryBlocks.mem_blocks.mpr (.inr (.inr ⟨j, hj, rfl⟩))
  have hlive := (htaken.fresh _ (List.mem_append_left _ hmem)).2
  have hne : addr ≠ D.tables j := fun heq => (List.nodup_append.mp htaken.nodup).2.2 _ hmem addr haddr heq.symm
  have hroom := h.room
  rw [Extent.holds_mk] at hheld
  refine C.blocks_apart htaken.valid h.live hlive hne (addr + i) ?_ (Contract.holds_page hlive hheld.1 hheld.2)
  unfold Contract.block
  rw [Extent.holds_mk]
  omega

/-- The file of a new ELF process, and the words of its image: if the file has its program headers, they are
what was mapped. -/
theorem NewProcess.elf {r₀ : Ram H} {P : Process} {other chunk : Nat} {u : Kernel H}
    (h : NewProcess C vol filename r₀ process P other D chunk entry u) (hfiletype : P.filetype = processFormatElf) :
    ∃ F record phdrs, u.elfFile P.ptr = some F ∧ HoldsFile C vol filename u.ram F.elfMemory record ∧
      (HeadersInFile (fileRead vol record) → phdrs = fileHeaders (fileRead vol record)) ∧
      entry = stackEntries (mapSegments F.elfMemory newEntry phdrs) P.stack := by
  obtain ⟨_, _, hmapped, htaken⟩ := h
  cases hmapped.image with
  | flat hflat _ _ => exact absurd (hfiletype.symm.trans hflat) (by decide)
  | @elf F record _ hF hmemory hholds =>
    subst hmemory
    have himage := hholds.elfImage htaken.valid
    have hapart := hholds.outside_tables htaken (by simp)
    cases hmapped.layout with
    | flat hflat => exact absurd (hfiletype.symm.trans hflat) (by decide)
    | @elf F' phdrs _ hF' hheaders =>
      obtain rfl : F = F' := Option.some.inj (hF.symm.trans hF')
      refine ⟨F, record, phdrs, hF, hholds, fun hfile => ?_, rfl⟩
      rw [hheaders (himage.stableHeaders hfile hapart)]
      exact himage.headersFrom hfile

/-- The state in which `process_load` maps an ELF process: the block of its file is none of the tables
of its new directory. -/
structure ElfUnmapped (C : Contract A) (vol : Volume) (filename : List UInt8) (D : DirectoryBlocks) (chunk : Nat)
    (s : Kernel H) (process : Nat) (P : Process) (F : ElfFile) (record : FatDirectoryItem) : Prop where
  made : s.process process = some P
  unmapped : Unmapped C vol filename D chunk s P F.elfMemory
  filetype : P.filetype = processFormatElf
  elfFile : s.elfFile P.ptr = some F
  holds : HoldsFile C vol filename s.ram F.elfMemory record
  apart : ∀ i, i < C.pages s.ram F.elfMemory * heapBlockSize → ¬ D.InTables (F.elfMemory + i)

/-- Once `process_map_memory` has succeeded, the process sees the segments of its file exactly when
the last page mapped for each of their bytes shows that byte. -/
theorem elfMapped_iff (C : Contract A) {chunk : Nat} {P : Process} {F : ElfFile} {res : Int}
    (h : ElfUnmapped C vol filename D chunk s process P F record) (hrun : processMapMemory process s = .ok (res, t))
    (hres : 0 ≤ res) :
    ∃ phdrs, (HeadersInFile (fileRead vol record) → phdrs = fileHeaders (fileRead vol record)) ∧
      (ElfMapped t.ram.mem D.directory (fileRead vol record) ↔
        ElfPlaced t.ram.mem (imagePages F.elfMemory phdrs P.stack) (fileRead vol record)) := by
  have himage := h.holds.elfImage h.unmapped.valid
  have hstack := (C.placed h.unmapped.valid h.unmapped.stack).1
  obtain ⟨mem, entry, rfl, hsame, htables, hmapped⟩ := (processMapMemory_spec h.made h.unmapped).returned hrun
  rcases hmapped with hneg | ⟨_, hlayout⟩
  · exact absurd hres (not_le.mpr hneg)
  cases hlayout with
  | flat hflat => exact absurd (h.filetype.symm.trans hflat) (by decide)
  | @elf F' phdrs _ hF' hheaders =>
    obtain rfl : F = F' := Option.some.inj (h.elfFile.symm.trans hF')
    refine ⟨phdrs, fun hfile => ?_, elfMapped_of_tables hstack _ phdrs htables _⟩
    rw [hheaders (himage.stableHeaders hfile fun i hi => h.apart i ?_)]
    · exact himage.headersFrom hfile
    · rw [length_fileRead] at hi
      exact Nat.lt_of_lt_of_le hi h.holds.room

/-- **The image as it is mapped.** Once `process_map_memory` has succeeded, the process sees every segment
as its file has it, if each of them can be used in place. -/
theorem elfMapped_in_place {chunk : Nat} {P : Process} {F : ElfFile} {res : Int}
    (h : ElfUnmapped C vol filename D chunk s process P F record) (hrun : processMapMemory process s = .ok (res, t))
    (hres : 0 ≤ res) (hplace : ∀ i, Segment (fileRead vol record) i → SegmentInPlace s.ram.mem F.elfMemory
      (C.pages s.ram F.elfMemory * heapBlockSize) P.stack (fileRead vol record) i) :
    ElfMapped t.ram.mem D.directory (fileRead vol record) := by
  obtain ⟨phdrs, hphdrs, hiff⟩ := elfMapped_iff C h hrun hres
  obtain ⟨_, _, rfl, hsame, _⟩ := (processMapMemory_spec h.made h.unmapped).returned hrun
  obtain ⟨halign, _, hlast⟩ := C.placed h.unmapped.valid h.holds.live
  have hfits : F.elfMemory + C.pages s.ram F.elfMemory * heapBlockSize + pagingPageSize ≤ 2 ^ 32 := by
    change F.elfMemory + C.pages s.ram F.elfMemory * heapBlockSize ≤ _ at hlast
    simp only [heapBaseAddress, heapMaxHeapSize, pagingPageSize] at hlast ⊢
    omega
  refine hiff.mpr fun v b hbyte => ?_
  cases hbyte with
  | mk i k header inFile load memsz =>
    have hsegment : Segment (fileRead vol record) i := ⟨header, inFile, load, by omega⟩
    have hinPlace := hplace i hsegment
    obtain rfl := hphdrs hinPlace.headers
    have hinBlock := hinPlace.inBlock
    rw [hinPlace.translation hsegment (by simp only [heapBlockSize, pagingPageSize] at *; omega) hfits memsz]
    refine (congrArg some (hsame _ (h.apart _ (by omega)))).trans ?_
    split
    · rename_i hfilesz
      have hlt := hinPlace.filesz k memsz hfilesz
      rw [(h.holds.elfImage h.unmapped.valid).bytes _ hlt, List.getElem?_eq_getElem hlt]
      exact congrArg some (List.getD_eq_getElem _ _ hlt)
    · exact congrArg some (hinPlace.zeroes k (by omega) memsz)

end Load

/-! ### A small program -/

def programProcess : Process := {zeroProcess with task := 0x6000, ptr := 0x7000, stack := ladderAddr 1}

/-- A heap with two blocks given out. -/
def twoBlocks : Ladder := ⟨2, [ladderAddr 1, ladderAddr 0]⟩

theorem twoBlocks_sound : twoBlocks.Sound := by
  refine ⟨by decide, fun p hp => ?_⟩
  rcases List.mem_cons.mp hp with rfl | hp
  · exact ⟨1, by decide, rfl⟩
  · exact ⟨0, by decide, List.mem_singleton.mp hp⟩

/-- Its process at 0x5000, with the file in the first block of the heap and the stack in the second. -/
def programKernel (offset size : UInt8) : Kernel Ladder where
  files := ⟨⟨twoBlocks, flatMemory newEntry fun a => (programFile offset size).getD (a - ladderAddr 0) 0⟩, fun _ => none⟩
  taskList := ⟨fun a => if a = 0x6000 then some {zeroTask with pageDirectory := 0x1FF000} else none, 0, 0, 0⟩
  process a := if a = 0x5000 then some programProcess else none
  elfFile a := if a = 0x7000 then some {zeroElfFile with elfMemory := ladderAddr 0} else none
  processes _ := 0
  currentProcess := 0

theorem programVolume_names (offset size : UInt8) : (programVolume offset size).Names pathX programRecord :=
  ⟨⟨fatHeader smallDisk, [programRecord], 1, 2, 3⟩, rfl, ⟨0, _, by decide, rfl, rfl, by decide +kernel⟩⟩

theorem programKernel_bytes (offset size : UInt8) (i : Nat) :
    (programKernel offset size).ram.mem (ladderAddr 0 + i) = (programFile offset size).getD i 0 := by
  have hlow : ¬ ladderAddr 0 + i < 0x800000 := by
    unfold ladderAddr
    simp only [heapBaseAddress]
    omega
  refine (if_neg hlow).trans ?_
  rw [Nat.add_sub_cancel_left]

theorem programKernel_unmapped {offset size : UInt8}
    (hread : fileImage (programVolume offset size) programRecord = (1, programFile offset size)) :
    ElfUnmapped ladderContract (programVolume offset size) pathX lowDirectory 0x1FF000 (programKernel offset size)
      0x5000 programProcess {zeroElfFile with elfMemory := ladderAddr 0} programRecord := by
  have hpages : ladderContract.live twoBlocks (ladderAddr 0) = 4 ∧
    ladderContract.live twoBlocks (ladderAddr 1) = 4 := by
    decide
  have hroom : ladderContract.pages (programKernel offset size).ram (ladderAddr 0) = 4 := hpages.1
  have hroom' : ladderContract.pages (programKernel offset size).ram programProcess.stack = 4 := hpages.2
  have hholds : HoldsFile ladderContract (programVolume offset size) pathX (programKernel offset size).ram
    (ladderAddr 0)
      programRecord := by
    refine ⟨programVolume_names offset size, by rw [hread], by rw [hroom]; decide, by rw [hroom]; decide, fun i _ => ?_⟩
    rw [hread]
    exact programKernel_bytes offset size i
  refine ⟨rfl, ⟨twoBlocks_sound, rfl, flatMemory_chunk _ _, flatMemory_tables (fun k hk => ?_) _,
    .elf rfl rfl rfl hholds,
    by rw [hroom']; decide, by rw [hroom']; decide⟩, rfl, rfl, hholds, fun i hi hin => ?_⟩
  · show k * 4096 + 5 < 2 ^ 32
    omega
  · have := lowDirectory_inTables hin
    simp only [ladderAddr, heapBaseAddress] at this
    omega

theorem programFile_headers (offset size : UInt8) : HeadersInFile (programFile offset size) := by
  refine ⟨?_, rfl, ?_⟩
  · show 46 ≤ 100
    decide
  · show 52 + 1 * 32 ≤ 100
    decide

theorem programFile_read : fileImage (programVolume 0 100) programRecord = (1, programFile 0 100) ∧
    fileImage (programVolume 84 16) programRecord = (1, programFile 84 16) := by
  decide +kernel

theorem fileRead_program : fileRead (programVolume 0 100) programRecord = programFile 0 100 := by
  unfold fileRead
  rw [programFile_read.1]
  decide

/-- The pages of the stack are none of the segment's. -/
theorem programPages_kept : ∀ m ∈ imagePages (ladderAddr 0) ((fileHeaders (programFile 0 100)).drop 1) (ladderAddr 1),
    m.1 < 0x400000 := by
  decide +kernel

theorem programFile_inPlace {size : Nat} (hsize : 100 ≤ size) (mem : Memory) :
    SegmentInPlace mem (ladderAddr 0) size (ladderAddr 1) (programFile 0 100) 0 where
  headers := programFile_headers 0 100
  stride := .inl rfl
  offset := rfl
  inBlock := hsize
  filesz k hk _ := by
    show 0 + k < 100
    rw [Nat.zero_add]
    exact hk
  zeroes k hfilesz hmemsz := absurd hmemsz (Nat.not_lt_of_le hfilesz)
  kept m hm k hk hpage := by
    have hlow := programPages_kept m hm
    have hk : k < 100 := hk
    rw [hpage, show (segmentHeader (programFile 0 100) 0).pVaddr = 0x400000 from rfl, u32_of_lt (by omega)] at hlow
    unfold pagingAlignToLowerPageAddr at hlow
    simp only [pagingPageSize] at hlow
    omega

/-- The condition met: a segment that starts where the file does. -/
theorem elfMapped_whole_file : ∃ t, processMapMemory 0x5000 (programKernel 0 100) = .ok (0, t) ∧
    ElfMapped t.ram.mem 0x200000 (programFile 0 100) := by
  obtain ⟨t, hrun⟩ : ∃ t, processMapMemory 0x5000 (programKernel 0 100) = .ok (0, t) :=
    result_eq_some (by decide +kernel)
  have hready := programKernel_unmapped programFile_read.1
  have hmapped := elfMapped_in_place hready hrun (Int.le_refl 0)
  rw [fileRead_program] at hmapped
  refine ⟨t, hrun, hmapped fun i hi => ?_⟩
  obtain rfl : i = 0 := Nat.lt_one_iff.mp hi.header
  exact programFile_inPlace (by decide) _

/-- What the program of `programKernel` reads at 0x400000 once it is mapped. -/
def firstByteSeen (offset size : UInt8) : Option UInt8 :=
  match processMapMemory 0x5000 (programKernel offset size) with
  | .ok (_, t) => some (userView t.ram.mem 0x200000 0x400000)
  | .error _ => none

theorem fileRead_shifted : fileRead (programVolume 84 16) programRecord = programFile 84 16 := by
  unfold fileRead
  rw [programFile_read.2]
  decide

/-- **A shifted segment.** The file is accepted, and its process is mapped; but with `p_offset` 84
for 0x400000 the program reads the start of the file there. -/
theorem elf_shifted :
    (elfProcessLoaded (programKernel 84 16).ram.mem {zeroElfFile with elfMemory := ladderAddr 0}).1 = 0 ∧
      ElfUnmapped ladderContract (programVolume 84 16) pathX lowDirectory 0x1FF000 (programKernel 84 16) 0x5000
        programProcess {zeroElfFile with elfMemory := ladderAddr 0} programRecord ∧
      ∃ t, processMapMemory 0x5000 (programKernel 84 16) = .ok (0, t) ∧
        ¬ ElfMapped t.ram.mem lowDirectory.directory (fileRead (programVolume 84 16) programRecord) := by
  obtain ⟨t, hrun⟩ : ∃ t, processMapMemory 0x5000 (programKernel 84 16) = .ok (0, t) :=
    result_eq_some (by decide +kernel)
  refine ⟨by decide +kernel, programKernel_unmapped programFile_read.2, t, hrun, fun hmapped => ?_⟩
  rw [fileRead_shifted] at hmapped
  have hseen : firstByteSeen 84 16 = some 0x7F := by decide +kernel
  unfold firstByteSeen at hseen
  rw [hrun] at hseen
  have hseen : some (userView t.ram.mem 0x200000 0x400000) = some 0x7F := hseen
  have hbyte : SegmentByte (programFile 84 16) 0x400000 (some 0x90) :=
    .mk 0 0 (by decide) (by decide) (by decide) (by decide)
  rw [show some (userView t.ram.mem 0x200000 0x400000) = some 0x90 from (hmapped _ _ hbyte).2] at hseen
  exact absurd hseen (by decide)

end BasicOS

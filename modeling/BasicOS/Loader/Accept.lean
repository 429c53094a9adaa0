import BasicOS.Process.Layout

/-! What `elf_load` accepts, and which bytes it looks at.

`WellFormedElf` is a file that can be mapped: header, program headers and segments lie in
it, and it is an executable of the kind `elf_is_executable` describes. `Consulted` are the
bytes the checks read, in the order they read them: each check that passes leads to the next.

The checks ask for the signature, the class, the encoding and some `e_phoff`, and for every
program header to be `PT_LOAD`. No size is compared with the size of the file, and
`elf_is_executable` is never called: a file of 46 bytes without a program header is accepted
(`elfLoad_accepts_truncated`). So what `elf_load` promises holds exactly of the files that are
well formed and of those that are refused by bytes they have (`elfLoad_sound_iff`). -/
namespace BasicOS
open Lib Program

abbrev etExec : Nat := 0x02
abbrev sizeofElfHeader : Nat := 52

/-! ### Files -/

def eType (mem : Memory) (header : Nat) : Nat := read16 mem (header + 16)

/-- `elf_is_executable`, which nothing calls. -/
def elfIsExecutable (mem : Memory) (header : Nat) : Bool :=
  eType mem header == etExec && bkeTaskProgramVirtualAddr ≤ eEntry mem header

/-- A file as memory that starts at 0. -/
def fileMemory (file : List UInt8) : Memory := fun i => file.getD i 0

/-- Program header `i` of a file. -/
def fileHeader (file : List UInt8) (i : Nat) : Elf32Phdr :=
  elf32PhdrAt (fileMemory file) (ePhoff (fileMemory file) 0 + i * sizeofElf32Phdr)

/-- A file that a loader may accept. -/
structure WellFormedElf (file : List UInt8) : Prop where
  header : sizeofElfHeader ≤ file.length
  signature : elfValidSignature (fileMemory file) 0
  elfClass : elfValidClass (fileMemory file) 0
  encoding : elfValidEncoding (fileMemory file) 0
  executable : elfIsExecutable (fileMemory file) 0
  headers : ePhoff (fileMemory file) 0 + ePhnum (fileMemory file) 0 * sizeofElf32Phdr ≤ file.length
  segments : ∀ i, i < ePhnum (fileMemory file) 0 → (fileHeader file i).pType = ptLoad →
    (fileHeader file i).pOffset + (fileHeader file i).pFilesz ≤ file.length ∧
      (fileHeader file i).pFilesz ≤ (fileHeader file i).pMemsz

/-- The bytes of the signature. -/
def elfSignature (i : Nat) : UInt8 := [0x7F, 0x45, 0x4C, 0x46].getD i 0

/-- A file that some check refuses, all the bytes of which the checks got to are the file's. -/
inductive RefusedElf (file : List UInt8) : Prop where
  | signature (i : Nat) : i < 4 → i < file.length → (∀ j, j < i → fileMemory file j = elfSignature j) →
    fileMemory file i ≠ elfSignature i → RefusedElf file
  | elfClass : eiClass < file.length → elfValidSignature (fileMemory file) 0 →
    ¬ elfValidClass (fileMemory file) 0 → RefusedElf file
  | encoding : eiData < file.length → elfValidSignature (fileMemory file) 0 → elfValidClass (fileMemory file) 0 →
    ¬ elfValidEncoding (fileMemory file) 0 → RefusedElf file
  | noHeaders : 32 ≤ file.length → elfValidSignature (fileMemory file) 0 → elfValidClass (fileMemory file) 0 →
    elfValidEncoding (fileMemory file) 0 → ¬ elfHasProgramHeader (fileMemory file) 0 → RefusedElf file
  | header (i : Nat) : 46 ≤ file.length → elfValidateLoaded (fileMemory file) 0 = 0 →
    i < ePhnum (fileMemory file) 0 → (∀ j, j < i → (fileHeader file j).pType = ptLoad) →
    (fileHeader file i).pType ≠ ptLoad →
    ePhoff (fileMemory file) 0 + i * sizeofElf32Phdr + 4 ≤ file.length → RefusedElf file

/-! ### The bytes the checks read -/

/-- Where `elf_program_header` finds header `i`. -/
def headerAddr (mem : Memory) (header i : Nat) : Nat := u32 (elfPheader mem header + i * sizeofElf32Phdr)

/-- The addresses `elf_process_loaded` reads for a file at `p`. The field between `p_type` and
`p_vaddr` is read only where it is used. -/
inductive Consulted (mem : Memory) (p : Nat) : Nat → Prop where
  | signature (i : Nat) : i < 4 → (∀ j, j < i → mem (p + j) = elfSignature j) → Consulted mem p (p + i)
  | elfClass : elfValidSignature mem p → Consulted mem p (p + eiClass)
  | encoding : elfValidSignature mem p → elfValidClass mem p → Consulted mem p (p + eiData)
  | phoff (k : Nat) : elfValidSignature mem p → elfValidClass mem p → elfValidEncoding mem p → k < 4 →
    Consulted mem p (p + 28 + k)
  | phnum (k : Nat) : elfValidateLoaded mem p = 0 → k < 2 → Consulted mem p (p + 44 + k)
  | pheader (i k : Nat) : elfValidateLoaded mem p = 0 → i < ePhnum mem p →
    (∀ j, j < i → (elfProgramHeader mem p j).pType = ptLoad) → k < 4 → Consulted mem p (headerAddr mem p i + k)
  | segment (i field k : Nat) : elfValidateLoaded mem p = 0 → i < ePhnum mem p →
    (∀ j, j ≤ i → (elfProgramHeader mem p j).pType = ptLoad) → field = 4 ∨ field = 8 ∨ field = 16 → k < 4 →
    Consulted mem p (u32 (headerAddr mem p i + field) + k)

/-- Acceptance is sound: what is accepted is well formed, and only bytes of the file decide. -/
structure ElfSound (mem : Memory) (p : Nat) (file : List UInt8) (res : Int) : Prop where
  accepted : 0 ≤ res → WellFormedElf file
  inside : ∀ a, Consulted mem p a → p ≤ a ∧ a < p + file.length

variable {mem m : Memory} {p i : Nat} {file : List UInt8} {f : ElfFile}

/-! ### The checks -/

theorem elfValidSignature_iff (mem : Memory) (p : Nat) :
    elfValidSignature mem p ↔ ∀ i, i < 4 → mem (p + i) = elfSignature i := by
  unfold elfValidSignature
  simp only [Bool.and_eq_true, beq_iff_eq]
  constructor
  · rintro ⟨⟨⟨h0, h1⟩, h2⟩, h3⟩ i hi
    obtain rfl | rfl | rfl | rfl : i = 0 ∨ i = 1 ∨ i = 2 ∨ i = 3 := by omega
    · exact h0
    · exact h1
    · exact h2
    · exact h3
  · intro h
    exact ⟨⟨⟨h 0 (by decide), h 1 (by decide)⟩, h 2 (by decide)⟩, h 3 (by decide)⟩

/-- The first byte that differs from the signature. -/
theorem exists_mismatch (h : ¬ elfValidSignature mem p) :
    ∃ i, i < 4 ∧ (∀ j, j < i → mem (p + j) = elfSignature j) ∧ mem (p + i) ≠ elfSignature i := by
  rw [elfValidSignature_iff] at h
  have hex : ∃ i, i < 4 ∧ mem (p + i) ≠ elfSignature i := by
    by_contra hall
    exact h fun i hi => by_contra fun hne => hall ⟨i, hi, hne⟩
  obtain ⟨hlt, hne⟩ := Nat.find_spec hex
  refine ⟨Nat.find hex, hlt, fun j hj => ?_, hne⟩
  by_contra hneq
  exact Nat.find_min hex hj ⟨by omega, hneq⟩

theorem elfValidateLoaded_iff (mem : Memory) (p : Nat) :
    elfValidateLoaded mem p = 0 ↔ elfValidSignature mem p ∧ elfValidClass mem p ∧ elfValidEncoding mem p ∧
      elfHasProgramHeader mem p := by
  unfold elfValidateLoaded
  split
  · rename_i h
    simp only [Bool.and_eq_true] at h
    exact ⟨fun _ => ⟨h.1.1.1, h.1.1.2, h.1.2, h.2⟩, fun _ => rfl⟩
  · rename_i h
    simp only [Bool.and_eq_true] at h
    exact ⟨fun heq => absurd heq (by decide), fun hall => absurd ⟨⟨⟨hall.1, hall.2.1⟩, hall.2.2.1⟩, hall.2.2.2⟩ h⟩

/-- The loop goes through exactly when every header is to be loaded. -/
theorem elfProcessPheadersFrom_nonneg (mem : Memory) (n i : Nat) (f : ElfFile) :
    0 ≤ (elfProcessPheadersFrom mem n i f).1 ↔
      ∀ j, i ≤ j → j < i + n → (elfProgramHeader mem f.elfMemory j).pType = ptLoad := by
  induction n generalizing i f with
  | zero => exact ⟨fun _ j h1 h2 => absurd h2 (by omega), fun _ => Int.le_refl 0⟩
  | succ n ih =>
    unfold elfProcessPheadersFrom
    have hmemory := elfProcessPheader_elfMemory f (elfProgramHeader mem f.elfMemory i)
    by_cases hload : (elfProgramHeader mem f.elfMemory i).pType = ptLoad
    · have hres : (elfProcessPheader f (elfProgramHeader mem f.elfMemory i)).1 = 0 := by
        unfold elfProcessPheader
        rw [if_pos hload]
      simp only [hres, Int.lt_irrefl, if_false]
      rw [ih, hmemory]
      constructor
      · intro h j h1 h2
        by_cases hj : j = i
        · exact hj ▸ hload
        · exact h j (by omega) (by omega)
      · exact fun h j h1 h2 => h j (by omega) (by omega)
    · have hres : (elfProcessPheader f (elfProgramHeader mem f.elfMemory i)).1 = -eio := by
        unfold elfProcessPheader
        rw [if_neg hload]
      simp only [hres]
      rw [if_pos (by decide)]
      exact ⟨fun h : 0 ≤ -eio => absurd h (by decide), fun h => absurd (h i (Nat.le_refl _) (by omega)) hload⟩

/-- **What is accepted.** -/
theorem elfProcessLoaded_nonneg (mem : Memory) (f : ElfFile) :
    0 ≤ (elfProcessLoaded mem f).1 ↔ elfValidateLoaded mem f.elfMemory = 0 ∧
      ∀ i, i < ePhnum mem f.elfMemory → (elfProgramHeader mem f.elfMemory i).pType = ptLoad := by
  have hcode : elfValidateLoaded mem f.elfMemory = 0 ∨ elfValidateLoaded mem f.elfMemory = -einvformat := by
    unfold elfValidateLoaded
    split
    · exact .inl rfl
    · exact .inr rfl
  unfold elfProcessLoaded elfProcessPheaders
  rcases hcode with hcode | hcode
  · simp only [hcode, Int.lt_irrefl, if_false, true_and]
    rw [elfProcessPheadersFrom_nonneg]
    exact ⟨fun h i hi => h i (Nat.zero_le _) (by omega), fun h i _ hi => h i (by omega)⟩
  · simp only [hcode]
    rw [if_pos (by decide)]
    exact ⟨fun h : 0 ≤ -einvformat => absurd h (by decide), fun h => absurd h.1 (by decide)⟩

/-! ### Only these bytes decide -/

theorem headerAddr_congr (hphoff : ePhoff m p = ePhoff mem p) (i : Nat) : headerAddr m p i = headerAddr mem p i := by
  unfold headerAddr elfPheader elfHasProgramHeader
  rw [hphoff]

/-- The same answer wherever the bytes read for it are the same. -/
theorem elfValidateLoaded_congr (h : ∀ a, Consulted mem p a → m a = mem a) :
    elfValidateLoaded m p = elfValidateLoaded mem p ∧
      (elfValidateLoaded mem p = 0 → ePhoff m p = ePhoff mem p ∧ ePhnum m p = ePhnum mem p) := by
  unfold elfValidateLoaded
  by_cases hsig : elfValidSignature mem p
  · have hsig' : elfValidSignature m p := by
      rw [elfValidSignature_iff] at hsig ⊢
      exact fun i hi => (h _ (.signature i hi fun j hj => hsig j (by omega))).trans (hsig i hi)
    have hclass : elfValidClass m p = elfValidClass mem p := by
      unfold elfValidClass
      rw [h _ (.elfClass hsig)]
    by_cases hcl : elfValidClass mem p
    · have henc : elfValidEncoding m p = elfValidEncoding mem p := by
        unfold elfValidEncoding
        rw [h _ (.encoding hsig hcl)]
      by_cases hen : elfValidEncoding mem p
      · have hphoff : ePhoff m p = ePhoff mem p :=
          read32_congr fun b h1 h2 => by
            have hb := h _ (.phoff (b - (p + 28)) hsig hcl hen (by omega))
            rwa [Nat.add_sub_cancel' h1] at hb
        have hhas : elfHasProgramHeader m p = elfHasProgramHeader mem p := by
          unfold elfHasProgramHeader
          rw [hphoff]
        rw [hsig, hsig', hclass, henc, hhas]
        refine ⟨rfl, fun hvalid => ⟨hphoff, ?_⟩⟩
        have hvalid : elfValidateLoaded mem p = 0 := by
          unfold elfValidateLoaded
          rw [hsig]
          exact hvalid
        have h0 := h _ (.phnum 0 hvalid (by decide))
        have h1 := h _ (.phnum 1 hvalid (by decide))
        unfold ePhnum read16
        rw [← h1]
        exact congrArg (fun b => UInt8.toNat b + _) h0
      · simp [hsig, hsig', hclass, henc, hcl, hen, einvformat]
    · simp [hsig, hsig', hclass, hcl, einvformat]
  · have hsig' : ¬ elfValidSignature m p := by
      obtain ⟨i, hi, hsame, hne⟩ := exists_mismatch hsig
      rw [elfValidSignature_iff]
      exact fun hall => hne ((h _ (.signature i hi hsame)).symm.trans (hall i hi))
    simp [hsig, hsig', einvformat]

/-- A header of another type decides by its type. -/
theorem elfProcessPheader_congr (f : ElfFile) {phdr phdr' : Elf32Phdr} (htype : phdr'.pType = phdr.pType)
    (h : phdr.pType = ptLoad → phdr'.pOffset = phdr.pOffset ∧ phdr'.pVaddr = phdr.pVaddr ∧
      phdr'.pFilesz = phdr.pFilesz) : elfProcessPheader f phdr' = elfProcessPheader f phdr := by
  unfold elfProcessPheader elfProcessPhdrPtLoad
  rw [htype]
  split
  · obtain ⟨hoffset, hvaddr, hfilesz⟩ := h ‹_›
    rw [hoffset, hvaddr, hfilesz]
  · rfl

/-- The fields of a header the checks get to are read from those bytes. -/
theorem elfProgramHeader_congr (h : ∀ a, Consulted mem p a → m a = mem a) (hvalid : elfValidateLoaded mem p = 0)
    (hphoff : ePhoff m p = ePhoff mem p) (hi : i < ePhnum mem p)
    (hload : ∀ j, j < i → (elfProgramHeader mem p j).pType = ptLoad) (g : ElfFile) :
    elfProcessPheader g (elfProgramHeader m p i) = elfProcessPheader g (elfProgramHeader mem p i) := by
  have haddr := headerAddr_congr hphoff i
  have htype : (elfProgramHeader m p i).pType = (elfProgramHeader mem p i).pType := by
    show read32 m (headerAddr m p i) = read32 mem (headerAddr mem p i)
    rw [haddr]
    refine read32_congr fun b h1 h2 => ?_
    have hb := h _ (.pheader i (b - headerAddr mem p i) hvalid hi hload (by omega))
    rwa [Nat.add_sub_cancel' h1] at hb
  refine elfProcessPheader_congr g htype fun hthis => ?_
  have hupto : ∀ j, j ≤ i → (elfProgramHeader mem p j).pType = ptLoad := by
    intro j hj
    by_cases hji : j = i
    · exact hji ▸ hthis
    · exact hload j (by omega)
  have hfield : ∀ c, c = 4 ∨ c = 8 ∨ c = 16 →
      read32 m (u32 (headerAddr m p i + c)) = read32 mem (u32 (headerAddr mem p i + c)) := by
    intro c hc
    rw [haddr]
    refine read32_congr fun b h1 h2 => ?_
    have hb := h _ (.segment i c (b - u32 (headerAddr mem p i + c)) hvalid hi hupto hc (by omega))
    rwa [Nat.add_sub_cancel' h1] at hb
  exact ⟨hfield 4 (by omega), hfield 8 (by omega), hfield 16 (by omega)⟩

theorem elfProcessPheadersFrom_congr (h : ∀ a, Consulted mem p a → m a = mem a)
    (hvalid : elfValidateLoaded mem p = 0) (hphoff : ePhoff m p = ePhoff mem p) (n i : Nat) (f : ElfFile)
    (hf : f.elfMemory = p) (hin : i + n = ePhnum mem p)
    (hload : ∀ j, j < i → (elfProgramHeader mem p j).pType = ptLoad) :
    elfProcessPheadersFrom m n i f = elfProcessPheadersFrom mem n i f := by
  induction n generalizing i f with
  | zero => rfl
  | succ n ih =>
    have hmemory := elfProcessPheader_elfMemory f (elfProgramHeader mem p i)
    unfold elfProcessPheadersFrom
    rw [hf, elfProgramHeader_congr h hvalid hphoff (by omega) hload f]
    simp only
    split
    · rfl
    rename_i hok
    refine ih (i + 1) _ (hmemory.trans hf) (by omega) fun j hj => ?_
    by_cases hji : j = i
    · rw [hji]
      unfold elfProcessPheader at hok
      by_contra hother
      rw [if_neg hother] at hok
      exact hok (show -eio < 0 by decide)
    · exact hload j (by omega)

/-- **The verdict depends on no other byte.** -/
theorem elfProcessLoaded_congr (f : ElfFile) (h : ∀ a, Consulted mem f.elfMemory a → m a = mem a) :
    elfProcessLoaded m f = elfProcessLoaded mem f := by
  obtain ⟨hcode, hvalid⟩ := elfValidateLoaded_congr h
  unfold elfProcessLoaded
  simp only [hcode]
  split
  · rfl
  rename_i hnonneg
  have hzero : elfValidateLoaded mem f.elfMemory = 0 := by
    unfold elfValidateLoaded at hnonneg ⊢
    split
    · rfl
    · rename_i hbad
      rw [if_neg hbad] at hnonneg
      exact absurd (by decide) hnonneg
  obtain ⟨hphoff, hphnum⟩ := hvalid hzero
  unfold elfProcessPheaders
  rw [hphnum]
  exact elfProcessPheadersFrom_congr h hzero hphoff _ 0 f rfl (Nat.zero_add _) fun j hj => absurd hj (Nat.not_lt_zero j)

/-! ### The file in memory -/

/-- The block at `p` starts with the file. -/
structure ElfImage (mem : Memory) (p : Nat) (file : List UInt8) : Prop where
  bytes : ∀ i, i < file.length → mem (p + i) = fileMemory file i
  fits : p + file.length ≤ 2 ^ 32
  above : heapBaseAddress ≤ p

theorem ElfImage.read32_eq (h : ElfImage mem p file) {a : Nat} (ha : a + 4 ≤ file.length) :
    read32 (fileMemory file) a = read32 mem (p + a) := by
  unfold read32
  rw [← h.bytes a (by omega), ← h.bytes (a + 1) (by omega), ← h.bytes (a + 2) (by omega), ← h.bytes (a + 3) (by omega)]
  rfl

theorem ElfImage.read16_eq (h : ElfImage mem p file) {a : Nat} (ha : a + 2 ≤ file.length) :
    read16 (fileMemory file) a = read16 mem (p + a) := by
  unfold read16
  rw [← h.bytes a (by omega), ← h.bytes (a + 1) (by omega)]
  rfl

theorem ElfImage.signature (h : ElfImage mem p file) (hlen : 4 ≤ file.length) :
    elfValidSignature (fileMemory file) 0 ↔ elfValidSignature mem p := by
  rw [elfValidSignature_iff, elfValidSignature_iff]
  refine forall_congr' fun i => forall_congr' fun hi => ?_
  rw [Nat.zero_add, h.bytes i (by omega)]

theorem ElfImage.elfClass (h : ElfImage mem p file) (hlen : eiClass < file.length) :
    elfValidClass (fileMemory file) 0 = elfValidClass mem p := by
  unfold elfValidClass
  rw [Nat.zero_add, h.bytes _ hlen]

theorem ElfImage.encoding (h : ElfImage mem p file) (hlen : eiData < file.length) :
    elfValidEncoding (fileMemory file) 0 = elfValidEncoding mem p := by
  unfold elfValidEncoding
  rw [Nat.zero_add, h.bytes _ hlen]

theorem ElfImage.phoff (h : ElfImage mem p file) (hlen : 32 ≤ file.length) :
    ePhoff (fileMemory file) 0 = ePhoff mem p := by
  unfold ePhoff
  rw [Nat.zero_add]
  exact h.read32_eq (by omega)

theorem ElfImage.hasProgramHeader (h : ElfImage mem p file) (hlen : 32 ≤ file.length) :
    elfHasProgramHeader (fileMemory file) 0 = elfHasProgramHeader mem p := by
  unfold elfHasProgramHeader
  rw [h.phoff hlen]

theorem ElfImage.phnum (h : ElfImage mem p file) (hlen : 46 ≤ file.length) :
    ePhnum (fileMemory file) 0 = ePhnum mem p := by
  unfold ePhnum
  rw [Nat.zero_add]
  exact h.read16_eq (by omega)

theorem ElfImage.validated (h : ElfImage mem p file) (hlen : 32 ≤ file.length) :
    elfValidateLoaded (fileMemory file) 0 = 0 ↔ elfValidateLoaded mem p = 0 := by
  rw [elfValidateLoaded_iff, elfValidateLoaded_iff, h.signature (by omega),
    h.elfClass (by simp only [eiClass]; omega), h.encoding (by simp only [eiData]; omega), h.hasProgramHeader hlen]

/-- A header that starts in the file is where the file has it. -/
theorem ElfImage.headerAddr_eq (h : ElfImage mem p file) (hlen : 32 ≤ file.length)
    (hvalid : elfValidateLoaded mem p = 0)
    (hi : ePhoff (fileMemory file) 0 + i * sizeofElf32Phdr < file.length) :
    headerAddr mem p i = p + (ePhoff (fileMemory file) 0 + i * sizeofElf32Phdr) := by
  have hfits := h.fits
  have hhas := ((elfValidateLoaded_iff mem p).mp hvalid).2.2.2
  unfold headerAddr elfPheader
  rw [if_pos hhas, ← h.phoff hlen]
  unfold u32
  omega

theorem ElfImage.pType (h : ElfImage mem p file) (hlen : 32 ≤ file.length) (hvalid : elfValidateLoaded mem p = 0)
    (hi : ePhoff (fileMemory file) 0 + i * sizeofElf32Phdr + 4 ≤ file.length) :
    (fileHeader file i).pType = (elfProgramHeader mem p i).pType := by
  show read32 (fileMemory file) _ = read32 mem (headerAddr mem p i)
  rw [h.headerAddr_eq hlen hvalid (by omega)]
  exact h.read32_eq hi

/-- A header that is found in the block is one of the file. -/
theorem ElfImage.header_in_file (h : ElfImage mem p file) (hlen : 46 ≤ file.length)
    (hvalid : elfValidateLoaded mem p = 0) (hi : i < ePhnum mem p)
    (hfirst : p ≤ headerAddr mem p 0 ∧ headerAddr mem p 0 < p + file.length)
    (haddr : p ≤ headerAddr mem p i ∧ headerAddr mem p i + 3 < p + file.length) :
    ePhoff (fileMemory file) 0 + i * sizeofElf32Phdr + 4 ≤ file.length := by
  have hhas := ((elfValidateLoaded_iff mem p).mp hvalid).2.2.2
  have hphoff := read32_lt mem (p + 28)
  have hphnum := ePhnum_lt mem p
  have hfits := h.fits
  have habove := h.above
  rw [h.phoff (by omega)]
  -- an address that wraps around is below the heap
  unfold headerAddr elfPheader at hfirst haddr
  rw [if_pos hhas] at hfirst haddr
  unfold ePhoff u32 at *
  simp only [heapBaseAddress, sizeofElf32Phdr] at *
  omega

/-! ### Sound acceptance -/

theorem ElfImage.inside_of_headers (h : ElfImage mem p file) (hlen : 46 ≤ file.length)
    (hheaders : elfValidateLoaded mem p = 0 → ∀ i, i < ePhnum mem p →
      (∀ j, j < i → (elfProgramHeader mem p j).pType = ptLoad) →
      ePhoff (fileMemory file) 0 + i * sizeofElf32Phdr + 4 ≤ file.length ∧
        ((elfProgramHeader mem p i).pType = ptLoad →
          ePhoff (fileMemory file) 0 + i * sizeofElf32Phdr + 20 ≤ file.length)) (a : Nat)
    (ha : Consulted mem p a) : p ≤ a ∧ a < p + file.length := by
  cases ha with
  | signature i hi _ => omega
  | elfClass _ => simp only [eiClass]; omega
  | encoding _ _ => simp only [eiData]; omega
  | phoff k _ _ _ hk => omega
  | phnum k _ hk => omega
  | pheader i k hvalid hi hload hk =>
    have hin := (hheaders hvalid i hi hload).1
    rw [h.headerAddr_eq (by omega) hvalid (by omega)]
    omega
  | segment i field k hvalid hi hload hfield hk =>
    have hin := (hheaders hvalid i hi fun j hj => hload j (by omega)).2 (hload i (Nat.le_refl _))
    have hfits := h.fits
    rw [h.headerAddr_eq (by omega) hvalid (by omega), u32_of_lt (by omega)]
    omega

/-- The checks of a well-formed file stay in it. -/
theorem ElfImage.inside_of_wellFormed (h : ElfImage mem p file) (hwf : WellFormedElf file) (a : Nat)
    (ha : Consulted mem p a) : p ≤ a ∧ a < p + file.length := by
  have hlen := hwf.header
  have hheaders := hwf.headers
  simp only [sizeofElfHeader] at hlen
  refine h.inside_of_headers (by omega) (fun _ i hi _ => ?_) a ha
  rw [← h.phnum (by omega)] at hi
  simp only [sizeofElf32Phdr] at hheaders ⊢
  omega

/-- Neither does a refusal by bytes of the file look further. -/
theorem ElfImage.inside_of_refused (h : ElfImage mem p file) (href : RefusedElf file) (a : Nat)
    (ha : Consulted mem p a) : p ≤ a ∧ a < p + file.length := by
  cases href with
  | signature i hi hlen hsame hne =>
    rw [← h.bytes i hlen] at hne
    have hbad : ¬ elfValidSignature mem p := fun hall => hne ((elfValidSignature_iff mem p).mp hall i hi)
    cases ha with
    | signature j hj hbefore =>
      have hji : j ≤ i := by
        by_contra hlt
        exact hne (hbefore i (by omega))
      omega
    | elfClass hsig => exact absurd hsig hbad
    | encoding hsig _ => exact absurd hsig hbad
    | phoff _ hsig _ _ _ => exact absurd hsig hbad
    | phnum _ hvalid _ => exact absurd ((elfValidateLoaded_iff mem p).mp hvalid).1 hbad
    | pheader _ _ hvalid _ _ _ => exact absurd ((elfValidateLoaded_iff mem p).mp hvalid).1 hbad
    | segment _ _ _ hvalid _ _ _ _ => exact absurd ((elfValidateLoaded_iff mem p).mp hvalid).1 hbad
  | elfClass hlen _ hbad =>
    rw [h.elfClass hlen] at hbad
    simp only [eiClass] at hlen
    cases ha with
    | signature j hj _ => omega
    | elfClass _ => simp only [eiClass]; omega
    | encoding _ hcl => exact absurd hcl hbad
    | phoff _ _ hcl _ _ => exact absurd hcl hbad
    | phnum _ hvalid _ => exact absurd ((elfValidateLoaded_iff mem p).mp hvalid).2.1 hbad
    | pheader _ _ hvalid _ _ _ => exact absurd ((elfValidateLoaded_iff mem p).mp hvalid).2.1 hbad
    | segment _ _ _ hvalid _ _ _ _ => exact absurd ((elfValidateLoaded_iff mem p).mp hvalid).2.1 hbad
  | encoding hlen _ _ hbad =>
    rw [h.encoding hlen] at hbad
    simp only [eiData] at hlen
    cases ha with
    | signature j hj _ => omega
    | elfClass _ => simp only [eiClass]; omega
    | encoding _ _ => simp only [eiData]; omega
    | phoff _ _ _ hen _ => exact absurd hen hbad
    | phnum _ hvalid _ => exact absurd ((elfValidateLoaded_iff mem p).mp hvalid).2.2.1 hbad
    | pheader _ _ hvalid _ _ _ => exact absurd ((elfValidateLoaded_iff mem p).mp hvalid).2.2.1 hbad
    | segment _ _ _ hvalid _ _ _ _ => exact absurd ((elfValidateLoaded_iff mem p).mp hvalid).2.2.1 hbad
  | noHeaders hlen _ _ _ hbad =>
    rw [h.hasProgramHeader hlen] at hbad
    cases ha with
    | signature j hj _ => omega
    | elfClass _ => simp only [eiClass]; omega
    | encoding _ _ => simp only [eiData]; omega
    | phoff k _ _ _ hk => omega
    | phnum _ hvalid _ => exact absurd ((elfValidateLoaded_iff mem p).mp hvalid).2.2.2 hbad
    | pheader _ _ hvalid _ _ _ => exact absurd ((elfValidateLoaded_iff mem p).mp hvalid).2.2.2 hbad
    | segment _ _ _ hvalid _ _ _ _ => exact absurd ((elfValidateLoaded_iff mem p).mp hvalid).2.2.2 hbad
  | header i hlen hvalid _ hload hother hfile =>
    rw [h.validated (by omega)] at hvalid
    rw [h.pType (by omega) hvalid hfile] at hother
    refine h.inside_of_headers hlen (fun _ j hj hbefore => ?_) a ha
    have hji : j ≤ i := by
      by_contra hlt
      exact hother (hbefore i (by omega))
    refine ⟨?_, fun hthis => ?_⟩
    · simp only [sizeofElf32Phdr] at hfile ⊢
      omega
    · have hne : j ≠ i := fun heq => hother (heq ▸ hthis)
      simp only [sizeofElf32Phdr] at hfile ⊢
      omega

/-- What is refused by bytes of the file is refused in memory. -/
theorem ElfImage.not_accepted (h : ElfImage mem f.elfMemory file) (href : RefusedElf file) :
    ¬ 0 ≤ (elfProcessLoaded mem f).1 := by
  rw [elfProcessLoaded_nonneg]
  rintro ⟨hvalid, hall⟩
  obtain ⟨hsig, hcl, hen, hhas⟩ := (elfValidateLoaded_iff mem _).mp hvalid
  cases href with
  | signature i hi hlen _ hne =>
    rw [← h.bytes i hlen] at hne
    exact hne ((elfValidSignature_iff mem _).mp hsig i hi)
  | elfClass hlen _ hbad => exact hbad (by rwa [h.elfClass hlen])
  | encoding hlen _ _ hbad => exact hbad (by rwa [h.encoding hlen])
  | noHeaders hlen _ _ _ hbad => exact hbad (by rwa [h.hasProgramHeader hlen])
  | header i hlen _ hi _ hother hfile =>
    rw [h.phnum hlen] at hi
    rw [h.pType (by omega) hvalid hfile] at hother
    exact hother (hall i hi)

/-- A refusal that looked at bytes of the file only was due to them. -/
theorem ElfImage.refused (h : ElfImage mem f.elfMemory file)
    (hinside : ∀ a, Consulted mem f.elfMemory a → f.elfMemory ≤ a ∧ a < f.elfMemory + file.length)
    (hneg : ¬ 0 ≤ (elfProcessLoaded mem f).1) : RefusedElf file := by
  by_cases hsig : elfValidSignature mem f.elfMemory
  swap
  · obtain ⟨i, hi, hsame, hne⟩ := exists_mismatch hsig
    have hlen := (hinside _ (.signature i hi hsame)).2
    refine .signature i hi (by omega) (fun j hj => ?_) ?_
    · rw [← h.bytes j (by omega)]
      exact hsame j hj
    · rwa [← h.bytes i (by omega)]
  have hlen := (hinside _ (.elfClass hsig)).2
  simp only [eiClass] at hlen
  have hsig' := (h.signature (by omega)).mpr hsig
  by_cases hcl : elfValidClass mem f.elfMemory
  swap
  · exact .elfClass (by simp only [eiClass]; omega) hsig' (by rwa [h.elfClass (by simp only [eiClass]; omega)])
  have hlen := (hinside _ (.encoding hsig hcl)).2
  simp only [eiData] at hlen
  have hcl' : elfValidClass (fileMemory file) 0 := by rwa [h.elfClass (by simp only [eiClass]; omega)]
  by_cases hen : elfValidEncoding mem f.elfMemory
  swap
  · exact .encoding (by simp only [eiData]; omega) hsig' hcl' (by rwa [h.encoding (by simp only [eiData]; omega)])
  have hlen := (hinside _ (.phoff 3 hsig hcl hen (by decide))).2
  have hen' : elfValidEncoding (fileMemory file) 0 := by rwa [h.encoding (by simp only [eiData]; omega)]
  by_cases hhas : elfHasProgramHeader mem f.elfMemory
  swap
  · exact .noHeaders (by omega) hsig' hcl' hen' (by rwa [h.hasProgramHeader (by omega)])
  have hvalid := (elfValidateLoaded_iff mem _).mpr ⟨hsig, hcl, hen, hhas⟩
  have hlen := (hinside _ (.phnum 1 hvalid (by decide))).2
  have hex : ∃ i, i < ePhnum mem f.elfMemory ∧ (elfProgramHeader mem f.elfMemory i).pType ≠ ptLoad := by
    by_contra hall
    refine hneg ((elfProcessLoaded_nonneg mem f).mpr ⟨hvalid, fun i hi => ?_⟩)
    by_contra hother
    exact hall ⟨i, hi, hother⟩
  obtain ⟨hi, hother⟩ := Nat.find_spec hex
  have hload : ∀ j, j < Nat.find hex → (elfProgramHeader mem f.elfMemory j).pType = ptLoad := by
    intro j hj
    by_contra hne
    exact Nat.find_min hex hj ⟨by omega, hne⟩
  generalize Nat.find hex = i at hi hother hload
  -- every header up to this one was read, and so lies in the file
  have hfile : ∀ j, j ≤ i → ePhoff (fileMemory file) 0 + j * sizeofElf32Phdr + 4 ≤ file.length := by
    intro j hj
    have hread : ∀ j k, j ≤ i → k < 4 → f.elfMemory ≤ headerAddr mem f.elfMemory j + k ∧
        headerAddr mem f.elfMemory j + k < f.elfMemory + file.length :=
      fun j k hj hk => hinside _ (.pheader j k hvalid (by omega) (fun l hl => hload l (by omega)) hk)
    exact h.header_in_file (by omega) hvalid (by omega) (hread 0 0 (Nat.zero_le _) (by decide))
      ⟨(hread j 0 hj (by decide)).1, (hread j 3 hj (by decide)).2⟩
  refine .header i (by omega) ((h.validated (by omega)).mpr hvalid) (by rwa [h.phnum (by omega)])
    (fun j hj => ?_) ?_ (hfile i (Nat.le_refl _))
  · rw [h.pType (by omega) hvalid (hfile j (by omega))]
    exact hload j hj
  · rwa [h.pType (by omega) hvalid (hfile i (Nat.le_refl _))]

/-- **The checks are sound** on a file exactly when it is well formed or refused by its own bytes. -/
theorem elfSound_iff (h : ElfImage mem f.elfMemory file) :
    ElfSound mem f.elfMemory file (elfProcessLoaded mem f).1 ↔ WellFormedElf file ∨ RefusedElf file := by
  constructor
  · intro hsound
    by_cases hres : 0 ≤ (elfProcessLoaded mem f).1
    · exact .inl (hsound.accepted hres)
    · exact .inr (h.refused hsound.inside hres)
  · rintro (hwf | href)
    · exact ⟨fun _ => hwf, h.inside_of_wellFormed hwf⟩
    · exact ⟨fun hres => absurd hres (h.not_accepted href), h.inside_of_refused href⟩

/-! ### Calls of `elf_load` -/

section Load

variable {H : Type} {A : Allocator H} {C : Contract A} {vol : Volume} {filename : List UInt8} {s t u : Kernel H}

/-- `elf_load` up to the checks. -/
def elfRead (A : Allocator H) (vol : Volume) (filename : List UInt8) :
    Program Stop (Kernel H) (Except Int (Nat × Nat)) := do
  let elfFile ← onRam (kzalloc A sizeofElfFile)
  if elfFile = 0 then return .error (-enomem)
  modify fun s => s.putElfFile elfFile (some zeroElfFile)
  let res ← onFiles (fopen A vol filename [0x72])
  if s32 res ≤ 0 then return .error (-eio)
  elfFetch A vol elfFile (s32 res)

/-- `elf_load` called in `s` has read `file` to `p` and is in state `u`. -/
def ElfReads (A : Allocator H) (vol : Volume) (filename : List UInt8) (s u : Kernel H) (p : Nat)
    (file : List UInt8) : Prop :=
  ∃ n, elfRead A vol filename s = .ok (.ok (p, n), u) ∧ file = (List.range n).map fun i => u.ram.mem (p + i)

/-- Acceptance is sound for a call that returned `res`. -/
structure ElfLoadSound (A : Allocator H) (vol : Volume) (filename : List UInt8) (s : Kernel H) (res : Int) : Prop where
  accepted : 0 ≤ res → ∃ u p file, ElfReads A vol filename s u p file ∧ WellFormedElf file
  inside : ∀ u p file, ElfReads A vol filename s u p file → ∀ a, Consulted u.ram.mem p a →
    p ≤ a ∧ a < p + file.length

theorem ElfReads.unique {u' : Kernel H} {p' : Nat} {file' : List UInt8} (h : ElfReads A vol filename s u p file)
    (h' : ElfReads A vol filename s u' p' file') : u' = u ∧ p' = p ∧ file' = file := by
  obtain ⟨n, hrun, rfl⟩ := h
  obtain ⟨n', hrun', rfl⟩ := h'
  rw [hrun] at hrun'
  cases hrun'
  exact ⟨rfl, rfl, rfl⟩

/-- The bytes of a block that was read. -/
theorem elfImage_bytes {r : Ram H} {n : Nat} (hvalid : C.Valid r.heap) (hlive : C.pages r p ≠ 0)
    (hroom : n ≤ C.pages r p * heapBlockSize) : ElfImage r.mem p ((List.range n).map fun i => r.mem (p + i)) := by
  obtain ⟨_, hbase, hend⟩ := C.placed hvalid hlive
  change p + C.pages r p * heapBlockSize ≤ _ at hend
  refine ⟨fun i hi => ?_, ?_, hbase⟩
  · rw [List.length_map, List.length_range] at hi
    simp [fileMemory, List.getD_eq_getElem?_getD, hi]
  · rw [List.length_map, List.length_range]
    simp only [heapBaseAddress, heapMaxHeapSize] at hend
    omega

/-- A call fails without the file, or its result is the verdict on the file it read. -/
theorem elfLoad_verdict (hvalid : C.Valid s.ram.heap) (fd : Int) :
    Ensures (elfLoad A vol fd filename) (fun out _ =>
      (out.1 < 0 ∧ ∀ u p file, ¬ ElfReads A vol filename s u p file) ∨
        ∃ u file F, ElfReads A vol filename s u F.elfMemory file ∧ ElfImage u.ram.mem F.elfMemory file ∧
          out.1 = (elfProcessLoaded u.ram.mem F).1) s := by
  -- what was not read: `elf_read` ended with another answer
  have hunread : ∀ res v, elfRead A vol filename s = .ok (.error res, v) →
      ∀ u p file, ¬ ElfReads A vol filename s u p file := by
    rintro res v hrun u p file ⟨n, hrun', _⟩
    rw [hrun] at hrun'
    cases hrun'
  unfold elfLoad
  refine wp.bind (Ensures.onRam ((Ensures.self _ _).and ((Taken.refl hvalid).kzalloc _))) fun elfFile t ht => ?_
  obtain ⟨r₁, rfl, hrequest, helf⟩ := ht
  have hfirst : onRam (kzalloc A sizeofElfFile) s = .ok (elfFile, s.withRam r₁) := zoom_ok.mpr ⟨_, _, hrequest, rfl⟩
  split
  · rename_i hnull
    refine wp.bind (Ensures.onFiles (Ensures.self _ _)) fun _ _ _ => .inl ⟨by decide, ?_⟩
    refine hunread (-enomem) (s.withRam r₁) ?_
    exact bind_ok.mpr ⟨_, _, hfirst, by rw [if_pos hnull]; rfl⟩
  rename_i hne
  rcases helf with ⟨hnull, _⟩ | ⟨_, h₁, _, _⟩
  · exact absurd hnull hne
  rw [wp_bind, wp_modify]
  refine wp.bind (Ensures.onFiles ((Ensures.self _ _).and
    (fopen_spec (s := {s.files with ram := r₁}) h₁ vol filename [0x72]))) fun res t ht => ?_
  obtain ⟨files, rfl, hopenrun, hopen⟩ := ht
  have hsecond : ∀ {r : Except Int (Nat × Nat) × Kernel H},
      (if s32 res ≤ 0 then (pure (.error (-eio)) : Program Stop (Kernel H) _)
        else elfFetch A vol elfFile (s32 res)) {(s.withRam r₁).putElfFile elfFile (some zeroElfFile) with files := files} =
        .ok r → elfRead A vol filename s = .ok r := by
    intro r hr
    refine bind_ok.mpr ⟨_, _, hfirst, ?_⟩
    rw [if_neg hne]
    refine bind_ok.mpr ⟨_, _, modify_apply _ _, ?_⟩
    exact bind_ok.mpr ⟨_, _, zoom_ok.mpr ⟨_, _, hopenrun, rfl⟩, hr⟩
  split
  · rename_i hneg
    refine wp.bind (Ensures.onFiles (Ensures.self _ _)) fun _ _ _ => .inl ⟨by decide, ?_⟩
    refine hunread (-eio) {(s.withRam r₁).putElfFile elfFile (some zeroElfFile) with files := files} (hsecond ?_)
    rw [if_pos hneg]
    rfl
  rename_i hpos
  rcases hopen with ⟨rfl, _, _⟩ | ⟨i, desc, rfl, hopened, hfree, htable, h₂⟩
  · exact absurd (by decide) hpos
  rw [s32_fd hopened.index] at hpos hsecond ⊢
  have hfd : files.fileGetFd (i + 1 : Nat) = some desc :=
    fileGetFd_opened hopened.index (by rw [htable, Function.update_self])
  dsimp only
  rw [elfReadFile_eq]
  refine wp.bind (wp.bind ((Ensures.self _ _).and
    (elfFetch_spec (E := zeroElfFile) (Function.update_self ..) hfd hopened h₂)) fun out t ht => ?_) fun _ _ ht =>
    wp.bind (Ensures.onFiles (Ensures.self _ _)) fun _ _ _ => ht
  obtain ⟨hfetchrun, p, ram, rfl, hfetched⟩ := ht
  rw [if_neg hpos] at hsecond
  have hread := hsecond hfetchrun
  rcases hfetched with ⟨res, rfl, hneg, _⟩ | ⟨rfl, h₃, hholds⟩
  · exact .inl ⟨hneg, hunread _ _ hread⟩
  show wp (elfCheck elfFile) _ _ _
  rw [wp_elfCheck (E := {zeroElfFile with elfMemory := p}) (Function.update_self ..)]
  exact .inr ⟨_, _, {zeroElfFile with elfMemory := p}, ⟨_, hread, rfl⟩,
    elfImage_bytes h₃.valid hholds.live hholds.room, rfl⟩

/-- **Acceptance is sound** exactly for the files that are well formed, that are refused by bytes
they have, or that are never read: for every allocator that keeps its contract and every call. -/
theorem elfLoad_sound_iff (C : Contract A) (hvalid : C.Valid s.ram.heap) {fd res : Int} {out : Nat}
    (hrun : elfLoad A vol fd filename s = .ok ((res, out), t)) :
    ElfLoadSound A vol filename s res ↔
      ∀ u p file, ElfReads A vol filename s u p file → WellFormedElf file ∨ RefusedElf file := by
  rcases (elfLoad_verdict hvalid fd).returned hrun with ⟨hneg, hunread⟩ | ⟨v, image, F, hreads, himage, hres⟩
  · constructor
    · exact fun _ u p file h => absurd h (hunread u p file)
    · exact fun _ => ⟨fun hnonneg => absurd hneg (not_lt.mpr hnonneg), fun u p file h => absurd h (hunread u p file)⟩
  · have hiff := elfSound_iff (f := F) himage
    rw [← hres] at hiff
    constructor
    · intro hsound u p file h
      obtain ⟨rfl, rfl, rfl⟩ := hreads.unique h
      refine hiff.mp ⟨fun hnonneg => ?_, hsound.inside _ _ _ h⟩
      obtain ⟨u, p, file, h', hwf⟩ := hsound.accepted hnonneg
      obtain ⟨_, _, rfl⟩ := h.unique h'
      exact hwf
    · intro hfile
      have hsound := hiff.mpr (hfile v F.elfMemory image hreads)
      refine ⟨fun hnonneg => ⟨v, F.elfMemory, image, hreads, hsound.accepted hnonneg⟩, fun u p file h => ?_⟩
      obtain ⟨rfl, rfl, rfl⟩ := hreads.unique h
      exact hsound.inside

end Load

/-! ### Two files -/

/-- An ELF file with one segment of `size` bytes from `offset` on, for 0x400000. -/
def programFile (offset size : UInt8) : List UInt8 :=
  [0x7F, 0x45, 0x4C, 0x46, 1, 1, 1, 0, 0, 0, 0, 0, 0, 0, 0, 0,
    2, 0, 3, 0, 1, 0, 0, 0, 0, 0, 0x40, 0, 52, 0, 0, 0, 0, 0, 0, 0, 0, 0, 0, 0, 52, 0, 32, 0, 1, 0, 0, 0, 0, 0, 0, 0,
    1, 0, 0, 0, offset, 0, 0, 0, 0, 0, 0x40, 0, 0, 0, 0, 0, size, 0, 0, 0, size, 0, 0, 0, 5, 0, 0, 0, 0, 0, 0, 0] ++
    List.replicate 16 0x90

def programRecord : FatDirectoryItem :=
  ⟨[0x58, 0x20, 0x20, 0x20, 0x20, 0x20, 0x20, 0x20], [0x20, 0x20, 0x20], 0, 0, 0, 0, 0, 0, 0, 0, 0, 2, 100⟩

/-- A volume with that file, `x`, in its first cluster. -/
def programVolume (offset size : UInt8) : Volume where
  disk a := if a < 1536 then smallDisk a else (programFile offset size).getD (a - 1536) 0
  mounted := some ⟨fatHeader smallDisk, [programRecord], 1, 2, 3⟩

/-- The file that `elf_load` reads. -/
def bytesRead (A : Allocator Ladder) (vol : Volume) (filename : List UInt8) (s : Kernel Ladder) : Option (List UInt8) :=
  match elfRead A vol filename s with
  | .ok (.ok (p, n), u) => some ((List.range n).map fun i => u.ram.mem (p + i))
  | _ => none

theorem ElfReads.bytesRead {A : Allocator Ladder} {vol : Volume} {filename file : List UInt8} {s u : Kernel Ladder}
    {p : Nat} (h : ElfReads A vol filename s u p file) : bytesRead A vol filename s = some file := by
  obtain ⟨n, hrun, rfl⟩ := h
  unfold BasicOS.bytesRead
  rw [hrun]

theorem programFile_wellFormed : WellFormedElf (programFile 0 100) where
  header := by decide
  signature := by decide
  elfClass := by decide
  encoding := by decide
  executable := by decide
  headers := by decide
  segments := by decide

set_option maxRecDepth 100000 in
/-- The condition met: a file with one segment is accepted. -/
theorem elfLoad_sound_program : ∃ kernel,
    elfLoad ladder (programVolume 0 100) 0 pathX noProcesses = .ok ((0, 0x1000000), kernel) ∧
      ElfLoadSound ladder (programVolume 0 100) pathX noProcesses 0 := by
  obtain ⟨kernel, hrun⟩ : ∃ kernel,
      elfLoad ladder (programVolume 0 100) 0 pathX noProcesses = .ok ((0, 0x1000000), kernel) :=
    result_eq_some (by decide +kernel)
  have hbytes : bytesRead ladder (programVolume 0 100) pathX noProcesses = some (programFile 0 100) := by
    decide +kernel
  refine ⟨kernel, hrun, (elfLoad_sound_iff ladderContract noFiles_valid hrun).mpr fun u p file h => .inl ?_⟩
  obtain rfl := Option.some.inj (hbytes.symm.trans h.bytesRead)
  exact programFile_wellFormed

/-- A header without its last bytes: the signature and an `e_phoff`, all else zero. -/
def truncatedDisk : Memory := fun a =>
  if a < 1536 then smallDisk a
  else if a = 1536 then 0x7F else if a = 1537 then 0x45 else if a = 1538 then 0x4C else if a = 1539 then 0x46
  else if a = 1564 then 52 else 0

/-- A volume with the file `x` of 46 bytes. -/
def truncatedVolume : Volume where
  disk := truncatedDisk
  mounted := some ⟨fatHeader truncatedDisk, [⟨[0x58, 0x20, 0x20, 0x20, 0x20, 0x20, 0x20, 0x20], [0x20, 0x20, 0x20],
    0, 0, 0, 0, 0, 0, 0, 0, 0, 2, 46⟩], 1, 2, 3⟩

set_option maxRecDepth 100000 in
/-- **A truncated file is accepted**: 46 bytes, and no program header. -/
theorem elfLoad_accepts_truncated : ∃ kernel,
    elfLoad ladder truncatedVolume 0 pathX noProcesses = .ok ((0, 0x1000000), kernel) ∧
      ¬ ElfLoadSound ladder truncatedVolume pathX noProcesses 0 := by
  obtain ⟨kernel, hrun⟩ : ∃ kernel,
      elfLoad ladder truncatedVolume 0 pathX noProcesses = .ok ((0, 0x1000000), kernel) :=
    result_eq_some (by decide +kernel)
  refine ⟨kernel, hrun, fun hsound => ?_⟩
  obtain ⟨u, p, file, hreads, hwf⟩ := hsound.accepted (Int.le_refl 0)
  have hlen : (bytesRead ladder truncatedVolume pathX noProcesses).map List.length = some 46 := by decide +kernel
  rw [hreads.bytesRead] at hlen
  have hlen := Option.some.inj hlen
  have hheader := hwf.header
  simp only [sizeofElfHeader] at hheader
  omega

end BasicOS

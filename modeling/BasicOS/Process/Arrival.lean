import BasicOS.Process.Accounts
import BasicOS.Process.Focus

/-! What a load takes and what it leaves.

A load that succeeds has taken blocks for the process, its image, its stack, its task and its
directory, all of them new, and has left every block that was live before as it was; the
descriptors it opened are closed again. The process it leaves has a directory of its own
that maps its image and its stack. -/
namespace BasicOS
open Lib Program

variable {H : Type} {A : Allocator H} {C : Contract A} {r₀ : Ram H} {xs : List Nat}

/-! ### Reading the file -/

/-- What `fat16_read` delivers of the whole file. -/
def fileImage (vol : Volume) (record : FatDirectoryItem) : Int × List UInt8 :=
  match vol.mounted with
  | some priv => fat16Read vol.disk priv ⟨record, 0⟩ record.fileSize 1
  | none => (-einvarg, [])

/-- The block at `addr` holds the file of that record, which the path names. -/
structure HoldsFile (C : Contract A) (vol : Volume) (filename : List UInt8) (r : Ram H) (addr : Nat)
    (record : FatDirectoryItem) : Prop where
  names : vol.Names filename record
  read : (fileImage vol record).1 = 1
  live : C.pages r addr ≠ 0
  room : record.fileSize ≤ C.pages r addr * heapBlockSize
  bytes : ∀ i, i < record.fileSize → r.mem (addr + i) = (fileImage vol record).2.getD i 0

section Files

variable {s : Files H} {fd : Int} {desc : FileDescriptor} {vol : Volume} {filename : List UInt8}

theorem fstat_open (hfd : s.fileGetFd fd = some desc) (htype : desc.priv.item.type = fatItemTypeFile) :
    Ensures (fstat fd) (fun out t => t = s ∧ out = (0, desc.priv.item.record.fileSize)) s := by
  unfold fstat
  rw [Ensures, wp_bind, wp_get]
  simp only [hfd]
  unfold inRam fat16Stat
  rw [wp_zoom, if_neg (by simp [htype]), wp_bind, wp_when]
  exact ⟨fun _ => trivial, fun _ => ⟨rfl, rfl⟩⟩

theorem fat16Read_result (disk : Memory) (priv : FatPrivate) (file : FatFileDescriptor) (size : Nat) :
    (fat16Read disk priv file size 1).1 < 0 ∨ (fat16Read disk priv file size 1).1 = 1 := by
  unfold fat16Read
  generalize fat16ReadBlocks disk priv file.item size 1 (s32 file.pos) = out
  obtain ⟨res, bytes⟩ := out
  simp only
  split
  · exact .inl ‹_›
  · exact .inr (s32_of_lt (show 1 < 2 ^ 31 by decide))

/-- A file that was just opened is read from its start. -/
theorem fread_open {i : Nat} (hfd : s.fileGetFd fd = some desc) (hopened : Opened vol filename i desc) (ptr : Nat) :
    Ensures (fread vol ptr desc.priv.item.record.fileSize 1 fd) (fun res t =>
      ∃ bytes, bytes.length ≤ desc.priv.item.record.fileSize ∧
        t = {s with ram := {s.ram with mem := store s.ram.mem ptr bytes}} ∧
        (res < 0 ∨ res = 1 ∧ fileImage vol desc.priv.item.record = (1, bytes))) s := by
  unfold fread
  split
  · refine ⟨[], Nat.zero_le _, ?_, .inl (by decide)⟩
    rw [store_nil]
  rw [Ensures, wp_bind, wp_get]
  cases hmounted : vol.mounted with
  | none =>
    simp only [hfd]
    refine ⟨[], Nat.zero_le _, ?_, .inl (by decide)⟩
    rw [store_nil]
  | some priv =>
    simp only [hfd]
    rw [wp_bind, wp_when]
    refine ⟨fun _ => trivial, fun _ => ?_⟩
    have himage : fileImage vol desc.priv.item.record =
        fat16Read vol.disk priv ⟨desc.priv.item.record, desc.priv.pos⟩ desc.priv.item.record.fileSize 1 := by
      unfold fileImage
      rw [hmounted, hopened.pos]
    have hlen := length_fat16Read_one vol.disk priv ⟨desc.priv.item.record, desc.priv.pos⟩ desc.priv.item.record.fileSize
    have hres := fat16Read_result vol.disk priv ⟨desc.priv.item.record, desc.priv.pos⟩ desc.priv.item.record.fileSize
    rw [himage]
    generalize fat16Read vol.disk priv ⟨desc.priv.item.record, desc.priv.pos⟩ desc.priv.item.record.fileSize 1 = out at *
    obtain ⟨res, bytes⟩ := out
    refine ⟨bytes, hlen, rfl, hres.imp_right fun h => ⟨h, ?_⟩⟩
    rw [show res = 1 from h]

end Files

/-! ### The image -/

/-- The file in its block, after it was read into zeroed memory. -/
theorem holdsFile_store {vol : Volume} {filename : List UInt8} {record : FatDirectoryItem} {r r' : Ram H} {ptr : Nat}
    {bytes : List UInt8} (hnames : vol.Names filename record) (himage : fileImage vol record = (1, bytes))
    (hlive : C.pages r ptr ≠ 0) (hroom : record.fileSize ≤ C.pages r ptr * heapBlockSize)
    (hmem : r.mem = fill r'.mem ptr record.fileSize 0) :
    HoldsFile C vol filename {r with mem := store r.mem ptr bytes} ptr record := by
  refine ⟨hnames, by rw [himage], hlive, hroom, fun i hi => ?_⟩
  rw [himage]
  show store r.mem ptr bytes (ptr + i) = bytes.getD i 0
  by_cases hin : i < bytes.length
  · exact store_at _ _ hin
  · unfold store
    rw [if_neg (by omega), hmem, List.getD_eq_getElem?_getD, List.getElem?_eq_none (Nat.le_of_not_lt hin)]
    exact if_pos (by omega)

theorem elfProcessLoaded_spec (mem : Memory) (f : ElfFile) :
    (elfProcessLoaded mem f).1 ≤ 0 ∧ (elfProcessLoaded mem f).2.elfMemory = f.elfMemory := by
  unfold elfProcessLoaded
  simp only
  split
  · exact ⟨Int.le_of_lt ‹_›, rfl⟩
  · exact elfProcessPheadersFrom_spec _ _ _ _

section Elf

variable {s : Kernel H} {vol : Volume} {filename : List UInt8}

theorem Kernel.putElfFile_idem (s : Kernel H) (e : Nat) (F F' : Option ElfFile) :
    (s.putElfFile e F).putElfFile e F' = s.putElfFile e F' := by
  unfold Kernel.putElfFile
  rw [Function.update_idem]

/-- The file is read into a block of its own, or the block is forgotten. -/
theorem elfFetch_spec {elfFile : Nat} {E : ElfFile} {fd : Int} {desc : FileDescriptor} {i : Nat}
    (hF : s.elfFile elfFile = some E) (hfd : s.files.fileGetFd fd = some desc) (hopened : Opened vol filename i desc)
    (h : Taken C r₀ s.ram xs) :
    Ensures (elfFetch A vol elfFile fd) (fun out t => ∃ p ram,
      t = (s.withRam ram).putElfFile elfFile (some {E with elfMemory := p}) ∧
      ((∃ res, out = .error res ∧ res < 0 ∧ Taken C r₀ ram xs) ∨
        (out = .ok (p, desc.priv.item.record.fileSize) ∧ Taken C r₀ ram (p :: xs) ∧
          HoldsFile C vol filename ram p desc.priv.item.record))) s := by
  unfold elfFetch
  refine wp.bind (Ensures.onFiles (fstat_open hfd hopened.type)) fun out t ht => ?_
  obtain ⟨files, rfl, rfl, rfl⟩ := ht
  dsimp only
  rw [if_neg (by decide)]
  refine wp.bind (Ensures.onRam (h.kzalloc _)) fun elfMemory t ht => ?_
  obtain ⟨r₁, rfl, hmemory⟩ := ht
  rw [wp_bind]
  refine (wp_loadElfFile (s := s.withRam r₁) hF).mpr ?_
  rw [wp_bind]
  refine (wp_storeElfFile (s := s.withRam r₁) hF).mpr ?_
  split
  · rename_i hnull
    refine ⟨_, r₁, rfl, .inl ⟨_, rfl, by decide, ?_⟩⟩
    rcases hmemory with ⟨_, h₁⟩ | ⟨hne, _⟩
    · exact h₁
    · exact absurd hnull hne
  rename_i hne
  rcases hmemory with ⟨hnull, _⟩ | ⟨_, h₁, hroom, hzero⟩
  · exact absurd hnull hne
  refine wp.bind (Ensures.onFiles (fread_open (s := {s.files with ram := r₁}) hfd hopened elfMemory)) fun res t ht => ?_
  obtain ⟨_, rfl, bytes, hlen, rfl, hres⟩ := ht
  have h₂ := h₁.store (List.mem_cons_self ..) (Nat.le_trans hlen hroom)
  split
  · exact ⟨_, _, rfl, .inl ⟨_, rfl, ‹_›, h₂.tail⟩⟩
  rename_i hnonneg
  have hholds := holdsFile_store hopened.names (hres.resolve_left hnonneg).2
    (h₁.fresh elfMemory (List.mem_cons_self ..)).2 hroom hzero
  exact ⟨_, _, rfl, .inr ⟨rfl, h₂, hholds⟩⟩

/-- The checks give a verdict on the file in memory and change its `struct elf_file` only. -/
theorem wp_elfCheck {elfFile : Nat} {E : ElfFile} {Q : Int → Kernel H → Prop} {R : Stop → Prop}
    (hF : s.elfFile elfFile = some E) : wp (elfCheck elfFile) Q R s ↔
      Q (elfProcessLoaded s.ram.mem E).1 (s.putElfFile elfFile (some (elfProcessLoaded s.ram.mem E).2)) := by
  unfold elfCheck
  rw [wp_bind, wp_loadElfFile hF, wp_bind, wp_get]
  generalize elfProcessLoaded s.ram.mem E = out
  obtain ⟨res, F⟩ := out
  dsimp only
  rw [wp_bind, wp_storeElfFile hF, wp_pure]

/-- The file is read and checked, or its block is forgotten. -/
theorem elfReadFile_spec {elfFile : Nat} {E : ElfFile} {fd : Int} {desc : FileDescriptor} {i : Nat}
    (hF : s.elfFile elfFile = some E) (hfd : s.files.fileGetFd fd = some desc) (hopened : Opened vol filename i desc)
    (h : Taken C r₀ s.ram xs) :
    Ensures (elfReadFile A vol elfFile fd) (fun res t => ∃ F ram, t = (s.withRam ram).putElfFile elfFile (some F) ∧
      ((res < 0 ∧ Taken C r₀ ram xs) ∨
        (res = 0 ∧ Taken C r₀ ram (F.elfMemory :: xs) ∧ ∃ record,
          HoldsFile C vol filename ram F.elfMemory record))) s := by
  rw [elfReadFile_eq]
  refine wp.bind (elfFetch_spec hF hfd hopened h) fun out t ht => ?_
  obtain ⟨p, ram, rfl, hfetched⟩ := ht
  rcases hfetched with ⟨res, rfl, hneg, h₁⟩ | ⟨rfl, h₁, hholds⟩
  · exact ⟨_, ram, rfl, .inl ⟨hneg, h₁⟩⟩
  show wp (elfCheck elfFile) _ _ _
  rw [wp_elfCheck (E := {E with elfMemory := p}) (Function.update_self ..)]
  have hloaded := elfProcessLoaded_spec ram.mem {E with elfMemory := p}
  dsimp only [Kernel.ram, Kernel.withRam, Kernel.putElfFile]
  generalize elfProcessLoaded ram.mem {E with elfMemory := p} = out at *
  obtain ⟨res, F⟩ := out
  dsimp only at hloaded ⊢
  refine ⟨F, ram, Kernel.putElfFile_idem (s.withRam ram) elfFile _ _, ?_⟩
  by_cases hneg : res < 0
  · exact .inl ⟨hneg, h₁.tail⟩
  · rw [hloaded.2]
    exact .inr ⟨by omega, h₁, _, hholds⟩

theorem s32_fd {i : Nat} (hi : i < maxFileDescriptorsActive) : s32 (i + 1) = (i + 1 : Nat) :=
  s32_of_lt (by simp only [maxFileDescriptorsActive] at hi; omega)

/-- A descriptor that was just opened. -/
theorem fileGetFd_opened {files : Files H} {i : Nat} {desc : FileDescriptor} (hi : i < maxFileDescriptorsActive)
    (h : files.fileDescriptors i = some desc) : files.fileGetFd (i + 1 : Nat) = some desc := by
  unfold Files.fileGetFd
  rw [if_neg (by omega)]
  simpa using h

/-- Closing it brings the table back to what it was. -/
theorem fclose_opened {f : Files H} {before : Nat → Option FileDescriptor} {i : Nat} {desc : FileDescriptor}
    (hopened : Opened vol filename i desc) (hfree : before i = none)
    (htable : f.fileDescriptors = Function.update before i (some desc))
    (h : Taken C r₀ f.ram (desc.blocks ++ xs)) :
    Ensures (fclose A (i + 1 : Nat)) (fun _ f' => f'.fileDescriptors = before ∧
      Freed C f.ram f'.ram desc.blocks) f := by
  have hfd : f.fileGetFd (i + 1 : Nat) = some desc :=
    fileGetFd_opened hopened.index (by rw [htable, Function.update_self])
  refine (fclose_freed hfd hopened.type h.valid (fun b hb => (h.fresh b (List.mem_append_left xs hb)).2)
    (List.nodup_append.mp h.nodup).1).mono ?_
  rintro _ f' ⟨htable', hfreed⟩
  refine ⟨?_, hfreed⟩
  rw [htable', htable, hopened.id, Nat.add_sub_cancel, Function.update_idem, ← hfree, Function.update_eq_self]

/-- The file's block outlives the release of others. -/
theorem HoldsFile.freed {r r' : Ram H} {addr : Nat} {ys : List Nat} {record : FatDirectoryItem}
    (h : HoldsFile C vol filename r addr record) (hfreed : Freed C r r' ys) (haddr : addr ∉ ys) :
    HoldsFile C vol filename r' addr record := by
  have hpages := hfreed.kept addr haddr
  refine ⟨h.names, h.read, ?_, ?_, fun i hi => ?_⟩
  · rw [hpages]
    exact h.live
  · rw [hpages]
    exact h.room
  · rw [hfreed.mem]
    exact h.bytes i hi

/-- It keeps its bytes while other blocks are taken. -/
theorem HoldsFile.taken {r r' : Ram H} {addr : Nat} {ys : List Nat} {record : FatDirectoryItem}
    (h : HoldsFile C vol filename r addr record) (htaken : Taken C r r' ys) : HoldsFile C vol filename r' addr record := by
  have hpages := htaken.kept addr h.live
  refine ⟨h.names, h.read, ?_, ?_, fun i hi => ?_⟩
  · rw [hpages]
    exact h.live
  · rw [hpages]
    exact h.room
  · rw [htaken.same addr (addr + i) h.live]
    · exact h.bytes i hi
    · have hroom := h.room
      unfold Contract.block
      rw [Extent.holds_mk]
      omega

/-- The allocator answers null. -/
def Refused (A : Allocator H) (size : Nat) (r : Ram H) : Prop := ∃ r', kzalloc A size r = .ok (0, r')

/-- Without memory for its structure `elf_load` closes the descriptor that `fd` happens to hold. -/
def Unstarted (A : Allocator H) (fd : Int) (s t : Kernel H) : Prop :=
  ∃ r res files, kzalloc A sizeofElfFile s.ram = .ok (0, r) ∧ fclose A fd {s.files with ram := r} = .ok (res, files) ∧
    t = {s with files := files}

/-- An ELF file is loaded into two blocks, or its `struct elf_file` stays behind. -/
theorem elfLoad_spec (fd : Int) (h : Taken C r₀ s.ram xs) :
    Ensures (elfLoad A vol fd filename) (fun out t =>
      (out.1 = -enomem ∧ Unstarted A fd s t) ∨
      ¬ Refused A sizeofElfFile s.ram ∧ ∃ ram e F, t = (s.withRam ram).putElfFile e (some F) ∧
        ((out.1 < 0 ∧ Taken C r₀ ram (e :: xs)) ∨
          (out = (0, e) ∧ Taken C r₀ ram (F.elfMemory :: e :: xs) ∧
            ∃ record, HoldsFile C vol filename ram F.elfMemory record))) s := by
  unfold elfLoad
  refine wp.bind (Ensures.onRam ((Ensures.self _ _).and (h.kzalloc _))) fun elfFile t ht => ?_
  obtain ⟨r₁, rfl, hrequest, helf⟩ := ht
  split
  · rename_i hnull
    subst hnull
    refine wp.bind (Ensures.onFiles (Ensures.self _ _)) fun res t ht => ?_
    obtain ⟨files, rfl, hclose⟩ := ht
    exact .inl ⟨rfl, r₁, res, files, hrequest, hclose, rfl⟩
  rename_i hne
  have hstarted : ¬ Refused A sizeofElfFile s.ram := by
    rintro ⟨r', hr'⟩
    rw [hrequest] at hr'
    cases hr'
    exact hne rfl
  rcases helf with ⟨hnull, _⟩ | ⟨_, h₁, _, _⟩
  · exact absurd hnull hne
  rw [wp_bind, wp_modify]
  refine wp.bind (Ensures.onFiles (fopen_spec (s := {s.files with ram := r₁}) h₁ vol filename [0x72]))
    fun res t ht => ?_
  obtain ⟨files, rfl, hopen⟩ := ht
  rcases hopen with ⟨rfl, htable, h₂⟩ | ⟨i, desc, rfl, hopened, hfree, htable, h₂⟩
  · rw [if_pos (by decide)]
    have hclose : fclose A 0 files = .ok (-eio, files) := fclose_closed (if_pos (.inl (by decide)))
    unfold onFiles
    rw [wp_bind, wp_zoom]
    refine (wp_ok hclose).mpr (.inr ⟨hstarted, files.ram, elfFile, zeroElfFile, ?_, .inl ⟨by decide, h₂⟩⟩)
    obtain ⟨ram, fds⟩ := files
    obtain rfl : fds = s.files.fileDescriptors := htable
    rfl
  rw [s32_fd hopened.index, if_neg (by omega)]
  have hfd : files.fileGetFd (i + 1 : Nat) = some desc :=
    fileGetFd_opened hopened.index (by rw [htable, Function.update_self])
  refine wp.bind (elfReadFile_spec (E := zeroElfFile) (Function.update_self ..) hfd hopened h₂) fun res t ht => ?_
  obtain ⟨F, r₂, rfl, hread⟩ := ht
  rcases hread with ⟨hneg, h₃⟩ | ⟨rfl, h₃, record, hholds⟩
  · refine wp.bind (Ensures.onFiles (fclose_opened (f := {files with ram := r₂}) hopened hfree htable h₃))
      fun _ t ht => ?_
    obtain ⟨⟨ram, fds⟩, rfl, rfl, hfreed⟩ := ht
    refine .inr ⟨hstarted, ram, elfFile, F, ?_, .inl ⟨hneg, h₃.freed hfreed⟩⟩
    exact Kernel.putElfFile_idem (s.withRam ram) elfFile _ _
  · have h₃ := h₃.perm (@List.perm_middle _ F.elfMemory desc.blocks (elfFile :: xs)).symm
    refine wp.bind (Ensures.onFiles (fclose_opened (f := {files with ram := r₂}) hopened hfree htable h₃))
      fun _ t ht => ?_
    obtain ⟨⟨ram, fds⟩, rfl, rfl, hfreed⟩ := ht
    have hout : F.elfMemory ∉ desc.blocks := fun hmem =>
      (List.nodup_append.mp h₃.nodup).2.2 _ hmem _ (List.mem_cons_self ..) rfl
    refine .inr ⟨hstarted, ram, elfFile, F, ?_, .inr ⟨rfl, h₃.freed hfreed, record, hholds.freed hfreed hout⟩⟩
    exact Kernel.putElfFile_idem (s.withRam ram) elfFile _ _

end Elf

/-! ### The frame of a load -/

def TaskList.directory (tasks : TaskList) (task : Nat) : Option Nat := (tasks.tasks task).map Task.pageDirectory

/-- What a load of `process` leaves alone, `r₀` being memory when it started. -/
structure LoadFrame (C : Contract A) (r₀ : Ram H) (process : Nat) (s t : Kernel H) : Prop where
  fileDescriptors : t.files.fileDescriptors = s.files.fileDescriptors
  processes : t.processes = s.processes
  current : t.currentProcess = s.currentProcess
  process : ∀ q, q ≠ process → t.process q = s.process q
  elfFile : ∀ q, C.pages r₀ q ≠ 0 → t.elfFile q = s.elfFile q
  directory : ∀ q, C.pages r₀ q ≠ 0 → t.taskList.directory q = s.taskList.directory q

section Frame

variable {s t u : Kernel H} {process : Nat} {vol : Volume} {filename : List UInt8}

theorem LoadFrame.refl (s : Kernel H) : LoadFrame C r₀ process s s :=
  ⟨rfl, rfl, rfl, fun _ _ => rfl, fun _ _ => rfl, fun _ _ => rfl⟩

theorem LoadFrame.trans (h : LoadFrame C r₀ process s t) (h' : LoadFrame C r₀ process t u) :
    LoadFrame C r₀ process s u :=
  ⟨h'.fileDescriptors.trans h.fileDescriptors, h'.processes.trans h.processes, h'.current.trans h.current,
    fun q hq => (h'.process q hq).trans (h.process q hq), fun q hq => (h'.elfFile q hq).trans (h.elfFile q hq),
    fun q hq => (h'.directory q hq).trans (h.directory q hq)⟩

theorem LoadFrame.withRam (h : LoadFrame C r₀ process s t) (ram : Ram H) : LoadFrame C r₀ process s (t.withRam ram) :=
  ⟨h.fileDescriptors, h.processes, h.current, h.process, h.elfFile, h.directory⟩

theorem LoadFrame.putProcess (h : LoadFrame C r₀ process s t) (P : Option Process) :
    LoadFrame C r₀ process s (t.putProcess process P) :=
  ⟨h.fileDescriptors, h.processes, h.current, fun q hq => (Function.update_of_ne hq ..).trans (h.process q hq),
    h.elfFile, h.directory⟩

theorem LoadFrame.putElfFile (h : LoadFrame C r₀ process s t) {e : Nat} (he : C.pages r₀ e = 0) (F : Option ElfFile) :
    LoadFrame C r₀ process s (t.putElfFile e F) :=
  ⟨h.fileDescriptors, h.processes, h.current, h.process,
    fun q hq => (Function.update_of_ne (fun heq : q = e => hq (heq ▸ he)) ..).trans (h.elfFile q hq), h.directory⟩

/-- The image of a process: of an ELF file it is in the block `other`, and `ptr` is the `struct elf_file`;
a flat binary is at `ptr`, and `other` is what the attempt to read it as ELF left behind. -/
inductive Process.ImageOf (C : Contract A) (vol : Volume) (filename : List UInt8) (s : Kernel H) (P : Process)
    (other : Nat) : Prop where
  | elf {F record} (filetype : P.filetype = processFormatElf) (file : s.elfFile P.ptr = some F)
      (memory : F.elfMemory = other) (holds : HoldsFile C vol filename s.ram other record) : P.ImageOf C vol filename s other
  | flat {record} (filetype : P.filetype = processFormatFbin) (size : P.size = record.fileSize)
      (holds : HoldsFile C vol filename s.ram P.ptr record) : P.ImageOf C vol filename s other

/-- The fields a load of data sets. -/
structure Process.SameBut (P P' : Process) : Prop where
  id : P'.id = P.id
  task : P'.task = P.task
  allocations : P'.allocations = P.allocations
  stack : P'.stack = P.stack

theorem readBinary_spec {fd : Int} {desc : FileDescriptor} {i : Nat} {P : Process}
    (hP : s.process process = some P) (hfd : s.files.fileGetFd fd = some desc) (hopened : Opened vol filename i desc)
    (h : Taken C r₀ s.ram xs) :
    Ensures (readBinary A vol process fd) (fun res t => ∃ ram,
      (res < 0 ∧ t = s.withRam ram ∧ Taken C r₀ ram xs) ∨
      (res = 0 ∧ ∃ ptr record, t = (s.withRam ram).putProcess process
          (some {P with filetype := processFormatFbin, ptr := ptr, size := record.fileSize}) ∧
        Taken C r₀ ram (ptr :: xs) ∧ HoldsFile C vol filename ram ptr record)) s := by
  unfold readBinary
  refine wp.bind (Ensures.onFiles (fstat_open hfd hopened.type)) fun out t ht => ?_
  obtain ⟨files, rfl, rfl, rfl⟩ := ht
  dsimp only
  rw [if_neg (by decide)]
  refine wp.bind (Ensures.onRam (h.kzalloc _)) fun ptr t ht => ?_
  obtain ⟨r₁, rfl, hmemory⟩ := ht
  split
  · rename_i hnull
    rcases hmemory with ⟨_, h₁⟩ | ⟨hne, _⟩
    · exact ⟨r₁, .inl ⟨by decide, rfl, h₁⟩⟩
    · exact absurd hnull hne
  rename_i hne
  rcases hmemory with ⟨hnull, _⟩ | ⟨_, h₁, hroom, hzero⟩
  · exact absurd hnull hne
  refine wp.bind (Ensures.onFiles (fread_open (s := {s.files with ram := r₁}) hfd hopened ptr)) fun res t ht => ?_
  obtain ⟨_, rfl, bytes, hlen, rfl, hres⟩ := ht
  have h₂ := h₁.store (List.mem_cons_self ..) (Nat.le_trans hlen hroom)
  split
  · exact ⟨_, .inl ⟨by decide, rfl, h₂.tail⟩⟩
  rename_i hread
  have himage : fileImage vol desc.priv.item.record = (1, bytes) := by
    rcases hres with hneg | ⟨_, himage⟩
    · simp only [ne_eq, not_not] at hread
      omega
    · exact himage
  have hholds := holdsFile_store hopened.names himage (h₁.fresh ptr (List.mem_cons_self ..)).2 hroom hzero
  have hP' : (s.withRam {r₁ with mem := store r₁.mem ptr bytes}).process process = some P := hP
  rw [wp_bind]
  refine (wp_loadProcess hP').mpr ?_
  rw [wp_bind]
  refine (wp_storeProcess hP').mpr ?_
  exact ⟨{r₁ with mem := store r₁.mem ptr bytes}, .inr ⟨rfl, ptr, _, rfl, h₂, hholds⟩⟩

theorem processLoadBinary_spec {P : Process} (hP : s.process process = some P) (h : Taken C r₀ s.ram xs) :
    Ensures (processLoadBinary A vol filename process) (fun res t => ∃ ram,
      (res < 0 ∧ t = s.withRam ram ∧ Taken C r₀ ram xs) ∨
      (res = 0 ∧ ∃ ptr record, t = (s.withRam ram).putProcess process
          (some {P with filetype := processFormatFbin, ptr := ptr, size := record.fileSize}) ∧
        Taken C r₀ ram (ptr :: xs) ∧ HoldsFile C vol filename ram ptr record)) s := by
  unfold processLoadBinary
  refine wp.bind (Ensures.onFiles (fopen_spec h vol filename [0x72])) fun res t ht => ?_
  obtain ⟨files, rfl, hopen⟩ := ht
  rcases hopen with ⟨rfl, htable, h₁⟩ | ⟨i, desc, rfl, hopened, hfree, htable, h₁⟩
  · rw [if_pos rfl]
    have hclose : fclose A 0 files = .ok (-eio, files) := fclose_closed (if_pos (.inl (by decide)))
    unfold onFiles
    rw [wp_bind, wp_zoom]
    refine (wp_ok hclose).mpr ⟨files.ram, .inl ⟨by decide, ?_, h₁⟩⟩
    obtain ⟨ram, fds⟩ := files
    obtain rfl : fds = s.files.fileDescriptors := htable
    rfl
  rw [if_neg (by omega), s32_fd hopened.index]
  have hfd : files.fileGetFd (i + 1 : Nat) = some desc :=
    fileGetFd_opened hopened.index (by rw [htable, Function.update_self])
  have hP' : ({s with files := files} : Kernel H).process process = some P := hP
  refine wp.bind (readBinary_spec hP' hfd hopened h₁) fun res t ht => ?_
  obtain ⟨r₂, ⟨hneg, rfl, h₂⟩ | ⟨rfl, ptr, record, rfl, h₂, hholds⟩⟩ := ht
  · refine wp.bind (Ensures.onFiles (fclose_opened (f := {files with ram := r₂}) hopened hfree htable h₂))
      fun _ t ht => ?_
    obtain ⟨⟨ram, fds⟩, rfl, rfl, hfreed⟩ := ht
    exact ⟨ram, .inl ⟨hneg, rfl, h₂.freed hfreed⟩⟩
  · have h₂ := h₂.perm (@List.perm_middle _ ptr desc.blocks xs).symm
    refine wp.bind (Ensures.onFiles (fclose_opened (f := {files with ram := r₂}) hopened hfree htable h₂))
      fun _ t ht => ?_
    obtain ⟨⟨ram, fds⟩, rfl, rfl, hfreed⟩ := ht
    have hout : ptr ∉ desc.blocks := fun hmem =>
      (List.nodup_append.mp h₂.nodup).2.2 _ hmem _ (List.mem_cons_self ..) rfl
    exact ⟨ram, .inr ⟨rfl, ptr, record, rfl, h₂.freed hfreed, hholds.freed hfreed hout⟩⟩

/-- The data of a process is loaded into two blocks, of which `ptr` is one; or the process is as it was
and a block stays behind, unless there was no memory for the first. -/
theorem processLoadData_spec {fd : Int} {P : Process} (hP : s.process process = some P) (h : Taken C r₀ s.ram xs) :
    Ensures (processLoadData A vol fd filename process) (fun res t =>
      (res = -enomem ∧ Unstarted A fd s t) ∨
      (¬ Refused A sizeofElfFile s.ram ∧ LoadFrame C r₀ process s t ∧ ∃ other,
        (res < 0 ∧ t.process process = some P ∧ Taken C r₀ t.ram (other :: xs)) ∨
        (res = 0 ∧ ∃ P', t.process process = some P' ∧ P.SameBut P' ∧ P'.ImageOf C vol filename t other ∧
          Taken C r₀ t.ram (P'.ptr :: other :: xs)))) s := by
  unfold processLoadData processLoadElf
  rw [Ensures, wp_bind]
  refine wp.bind (elfLoad_spec fd h) fun out t ht => ?_
  obtain ⟨res, elfFile⟩ := out
  rcases ht with ⟨rfl, hunstarted⟩ | ⟨hstarted, r₁, e, F, rfl, ⟨hneg, h₁⟩ | ⟨hout, h₁, record, hholds⟩⟩
  · exact .inl ⟨rfl, hunstarted⟩
  · -- no ELF file
    have hfresh := (h₁.fresh e (List.mem_cons_self ..)).1
    have hframe := ((LoadFrame.refl s : LoadFrame C r₀ process s s).withRam r₁).putElfFile hfresh (some F)
    have hP' : ((s.withRam r₁).putElfFile e (some F)).process process = some P := hP
    simp only at hneg ⊢
    rw [if_pos hneg, wp_pure]
    split
    · refine (processLoadBinary_spec hP' h₁).mono fun res t' ht => ?_
      obtain ⟨ram, ⟨hneg, rfl, h₂⟩ | ⟨rfl, ptr, record, rfl, h₂, hholds⟩⟩ := ht
      · exact .inr ⟨hstarted, hframe.withRam ram, e, .inl ⟨hneg, hP', h₂⟩⟩
      · exact .inr ⟨hstarted, (hframe.withRam ram).putProcess _, e,
          .inr ⟨rfl, _, Function.update_self .., ⟨rfl, rfl, rfl, rfl⟩,
          .flat rfl rfl hholds, h₂⟩⟩
    · exact .inr ⟨hstarted, hframe, e, .inl ⟨hneg, hP', h₁⟩⟩
  · obtain ⟨rfl, rfl⟩ := Prod.mk.inj hout
    have hP' : ((s.withRam r₁).putElfFile elfFile (some F)).process process = some P := hP
    have hfresh := (h₁.fresh elfFile (by simp)).1
    have hframe := ((LoadFrame.refl s : LoadFrame C r₀ process s s).withRam r₁).putElfFile hfresh (some F)
    simp only
    rw [if_neg (by decide), wp_bind]
    refine (wp_loadProcess hP').mpr ?_
    rw [wp_bind]
    refine (wp_storeProcess hP').mpr ?_
    rw [wp_pure, if_neg (by decide)]
    exact .inr ⟨hstarted, hframe.putProcess _, F.elfMemory, .inr ⟨rfl, _, Function.update_self .., ⟨rfl, rfl, rfl, rfl⟩,
      .elf rfl (Function.update_self ..) rfl hholds, h₁.perm (List.Perm.swap ..)⟩⟩

end Frame

/-! ### The directories of tasks -/

section Tasks

variable {l : TaskList} {task : Nat}

theorem directory_put (l : TaskList) (task : Nat) (t : Option Task) :
    (l.put task t).directory = Function.update l.directory task (t.map Task.pageDirectory) := by
  funext q
  unfold TaskList.directory TaskList.put
  by_cases hq : q = task
  · subst hq
    simp only [Function.update_self]
  · simp only [Function.update_of_ne hq]

theorem loadTask_directory (task : Nat) (l : TaskList) :
    Ensures (loadTask task) (fun t l' => l' = l ∧ l.directory task = some t.pageDirectory) l := by
  unfold TaskList.directory
  cases h : l.tasks task with
  | none => exact (wp_error (by unfold loadTask; rw [h])).mpr trivial
  | some t => exact (wp_ok (by unfold loadTask; rw [h])).mpr ⟨rfl, rfl⟩

theorem storeTask_directory (task : Nat) (t : Task) (l : TaskList) :
    Ensures (storeTask task t) (fun _ l' => l'.directory = Function.update l.directory task
      (some t.pageDirectory)) l := by
  cases h : l.tasks task with
  | none => exact (wp_error (by unfold storeTask; rw [h])).mpr trivial
  | some _ => exact (wp_ok (by unfold storeTask; rw [h])).mpr (directory_put l task (some t))

/-- Links of a task change, and its directory stays. -/
theorem changeTask_directory (task : Nat) (f : Task → Task) (hf : ∀ t, (f t).pageDirectory = t.pageDirectory)
    (l : TaskList) : Ensures (do
      let t ← loadTask task
      storeTask task (f t)) (fun _ l' => l'.directory = l.directory) l := by
  refine wp.bind (loadTask_directory task l) ?_
  rintro t l' ⟨rfl, ht⟩
  refine (storeTask_directory task (f t) l').mono fun _ l'' hl => ?_
  rw [hl, hf, ← ht, Function.update_eq_self]

theorem taskLink_directory (task : Nat) (l : TaskList) :
    Ensures (taskLink task) (fun _ l' => l'.directory = l.directory) l := by
  unfold taskLink
  rw [Ensures, wp_bind, wp_get]
  split
  · rfl
  have hassoc : ∀ (next : Program Stop TaskList Unit) (a : Nat) (f : Task → Task),
      (∀ t, (f t).pageDirectory = t.pageDirectory) → ∀ l₀ : TaskList,
      (∀ l₁ : TaskList, l₁.directory = l₀.directory → Ensures next (fun _ l' => l'.directory = l₀.directory) l₁) →
      Ensures (do
        let t ← loadTask a
        storeTask a (f t)
        next) (fun _ l' => l'.directory = l₀.directory) l₀ := by
    intro next a f hf l₀ hnext
    refine wp.bind (loadTask_directory a l₀) ?_
    rintro t l' ⟨rfl, ht⟩
    refine wp.bind (storeTask_directory a (f t) l') fun _ l'' hl => hnext l'' ?_
    rw [hl, hf, ← ht, Function.update_eq_self]
  refine hassoc _ l.taskTail (fun t => {t with next := task}) (fun _ => rfl) l fun l₁ h₁ => ?_
  rw [← h₁]
  refine hassoc _ task (fun t => {t with prev := l.taskTail}) (fun _ => rfl) l₁ fun l₂ h₂ => ?_
  exact h₂

theorem taskNew_directory {pageDirectory : Nat} (eip process : Nat) (htask : task ≠ 0) (hdirectory : pageDirectory ≠ 0)
    (l : TaskList) : Ensures (taskNew task pageDirectory eip process) (fun ret l' => ret = task ∧
      l'.directory = Function.update l.directory task (some pageDirectory)) l := by
  unfold taskNew taskInit
  rw [Ensures, if_neg htask, wp_bind, wp_modify, wp_bind]
  have h₀ := directory_put l task (some zeroTask)
  generalize l.put task (some zeroTask) = l₀ at h₀
  refine wp.bind (storeTask_directory task zeroTask l₀) fun _ l₁ h₁ => ?_
  refine wp.bind (loadTask_directory task l₁) ?_
  rintro t l₁ ⟨rfl, _⟩
  refine wp.bind (storeTask_directory task _ l₁) fun _ l₂ h₂ => ?_
  rw [if_neg hdirectory]
  refine wp.bind (loadTask_directory task l₂) ?_
  rintro t l₂ ⟨rfl, ht⟩
  refine wp.bind (storeTask_directory task _ l₂) fun _ l₃ h₃ => ?_
  rw [wp_pure, if_neg (by decide), wp_bind]
  refine (taskLink_directory task l₃).mono fun _ l₄ h₄ => ⟨rfl, ?_⟩
  rw [h₂, Function.update_self, Option.some_inj] at ht
  rw [h₄, h₃, h₂, h₁, h₀]
  simp only [Function.update_idem, ← ht]

theorem loadTask_keeps_directory (task : Nat) (directory : Nat → Option Nat) :
    Preserves (loadTask task) fun l => l.directory = directory := by
  intro l h
  refine (loadTask_directory task l).mono ?_
  rintro t l' ⟨rfl, _⟩
  exact h

theorem taskListRemove_keeps_directory (task : Nat) (directory : Nat → Option Nat) :
    Preserves (taskListRemove task) fun l => l.directory = directory := by
  have hmodify : ∀ f : TaskList → TaskList, (∀ l, (f l).directory = l.directory) →
      Preserves (modify f : Program Stop TaskList Unit) fun l => l.directory = directory :=
    fun f hf => preserves_modify fun l h => (hf l).trans h
  unfold taskListRemove
  refine (loadTask_keeps_directory task directory).bind fun t =>
    Preserves.bind (Preserves.when fun l h => ?_) fun _ => ?_
  · refine (changeTask_directory t.prev (fun p => {p with next := t.next}) (fun _ => rfl) l).mono fun _ l' hl => ?_
    exact hl.trans h
  refine (loadTask_keeps_directory task directory).bind fun t => preserves_get.bind fun _ => ?_
  refine Preserves.bind (Preserves.when (hmodify _ fun _ => rfl)) fun _ => preserves_get.bind fun _ => ?_
  refine Preserves.bind (Preserves.when (hmodify _ fun _ => rfl)) fun _ => preserves_get.bind fun _ => ?_
  refine Preserves.when (Preserves.bind ?_ fun next => hmodify _ fun _ => rfl)
  unfold taskGetNext
  refine preserves_get.bind fun l => (loadTask_keeps_directory _ directory).bind fun current => ?_
  exact Preserves.ite (preserves_pure _) (preserves_pure _)

/-- A freed task has no directory, and the others keep theirs. -/
theorem taskFree_directory (task : Nat) (l : TaskList) :
    Ensures (taskFree task) (fun _ l' => l'.directory = Function.update l.directory task none) l := by
  unfold taskFree dropTask
  refine wp.bind (loadTask_keeps_directory task l.directory l rfl) fun t l₁ h₁ => ?_
  refine wp.bind (taskListRemove_keeps_directory task l.directory l₁ h₁) fun _ l₂ h₂ => ?_
  rw [wp_bind, wp_modify]
  show (l₂.put task none).directory = _
  rw [directory_put, h₂]
  rfl

end Tasks

/-! ### The task -/

/-- The words of a new directory: present and user-accessible. -/
abbrev newEntry : Nat → Nat := identityEntry (pagingMasksIsPresent ||| pagingMasksAccessAll)

section NewTask

variable {s : Kernel H} {process : Nat}

theorem programEntry_spec (process : Nat) (s : Kernel H) : Ensures (programEntry process) (fun _ t => t = s) s := by
  unfold programEntry
  refine wp.bind (loadProcess_spec process s) ?_
  rintro P t ⟨rfl, _⟩
  split
  · cases hF : t.elfFile P.ptr with
    | none =>
      rw [wp_bind]
      exact (wp_error (by unfold loadElfFile; rw [hF])).mpr trivial
    | some F =>
      rw [wp_bind]
      exact (wp_loadElfFile hF).mpr rfl
  · rfl

attribute [local irreducible] genPaging4gb

/-- A new task has a directory of its own, the identity. -/
theorem newTask_spec (h : Taken C r₀ s.ram xs) :
    Ensures (newTask A process) (fun task t => ∃ D chunk ram tasks, task ≠ 0 ∧
      t = {s.withRam ram with taskList := tasks} ∧
      tasks.directory = Function.update s.taskList.directory task (some chunk) ∧
      Taken C r₀ ram (D.blocks chunk ++ task :: xs) ∧ ChunkOf D chunk ram.mem ∧ Tables D newEntry ram.mem) s := by
  unfold newTask
  refine wp.bind (Ensures.onRam (h.kzalloc _)) fun task t ht => ?_
  obtain ⟨r₁, rfl, htask⟩ := ht
  rw [wp_bind, wp_when]
  refine ⟨fun _ => trivial, fun hne => ?_⟩
  rcases htask with ⟨hnull, _⟩ | ⟨_, h₁, _⟩
  · exact absurd hnull hne
  refine wp.bind (Ensures.onRam (genPaging4gb_spec (r := r₁) h₁.valid (by decide) (by decide))) fun chunk t ht => ?_
  obtain ⟨r₂, rfl, D, h₂, hchunk, htables⟩ := ht
  refine wp.bind (programEntry_spec process _) ?_
  rintro eip t rfl
  have hnull : chunk ≠ 0 := Contract.ne_null h₂.valid (h₂.fresh chunk (DirectoryBlocks.mem_blocks.mpr (.inl rfl))).2
  refine (Ensures.onTasks (taskNew_directory eip process hne hnull _)).mono fun ret t ht => ?_
  obtain ⟨tasks, rfl, rfl, hdirectory⟩ := ht
  exact ⟨D, chunk, r₂, tasks, hne, rfl, hdirectory, h₁.trans h₂, hchunk, htables⟩

end NewTask

end BasicOS

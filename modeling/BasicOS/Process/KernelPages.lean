import BasicOS.Process.Conservation
import BasicOS.Process.Image

/-! The kernel in the directory of a task.

An interrupt enters and returns while the directory of a task is loaded, so the image of the
kernel and the top of its stack have to be there, at their own addresses. `process_map_memory`
maps a program into that directory at addresses and lengths that its file chooses, and nothing
keeps it away from the pages of the kernel; memory a program allocates comes from the heap, which
is above them. So the kernel stays mapped exactly when the program is loaded beside it
(`kernelMapped_iff`). -/
namespace BasicOS
open Lib Program

variable {H : Type} {A : Allocator H} {C : Contract A} {vol : Volume} {junk : Uninitialised} {filename : List UInt8}
  {s t : Kernel H} {p k : Nat} {entry : Nat → Nat} {history : List (Nat × Nat)}

/-! ### The pages of the kernel -/

/-- Where the image of the kernel is linked. -/
abbrev kernelBase : Nat := 0x100000

/-- `tss.esp0`, the end of the stack of ring 0. -/
abbrev tssEsp0 : Nat := 0x600000

/-- A page of the kernel's image, which ends at `kernelEnd`, or the first page of its stack. -/
def KernelPage (kernelEnd k : Nat) : Prop :=
  (kernelBase ≤ k * pagingPageSize ∧ k * pagingPageSize < kernelEnd) ∨ (k + 1) * pagingPageSize = tssEsp0

/-- In the directory of the process's task those pages are present and mapped to themselves. -/
def KernelMapped (kernelEnd : Nat) (s : Kernel H) (p : Nat) : Prop :=
  ∃ P T, s.process p = some P ∧ s.taskList.tasks P.task = some T ∧ ∀ k, KernelPage kernelEnd k →
    Present s.ram.mem (read32 s.ram.mem T.pageDirectory) (k * pagingPageSize) ∧
    physicalAddress s.ram.mem (read32 s.ram.mem T.pageDirectory) (k * pagingPageSize) = k * pagingPageSize

/-! ### The program -/

/-- What was loaded: an ELF file into the block `image`, or a flat binary into the block `ptr`. -/
inductive LoadedImage where
  | elf (image : Nat) (phdrs : List Elf32Phdr)
  | flat (ptr size : Nat)

/-- The pages mapped for it, in order. -/
def LoadedImage.pages : LoadedImage → List (Nat × Nat)
  | .elf image phdrs => phdrs.flatMap (segmentPages image)
  | .flat ptr size =>
    pagesFrom bkeTaskProgramVirtualAddr ptr ((pagingAlignAddress (u32 (ptr + size)) - ptr) / pagingPageSize)

/-- The process was made from it. -/
inductive LoadedFrom (C : Contract A) (vol : Volume) (filename : List UInt8) (t : Kernel H) (p : Nat) :
    LoadedImage → Prop where
  | elf {image stack directory file phdrs} (made : ElfProcess C vol filename t p image stack directory file)
      (headers : HeadersInFile file → phdrs = fileHeaders file) : LoadedFrom C vol filename t p (.elf image phdrs)
  | flat {P record} (made : t.process p = some P) (filetype : P.filetype = processFormatFbin)
      (size : P.size = record.fileSize) (holds : HoldsFile C vol filename t.ram P.ptr record) :
      LoadedFrom C vol filename t p (.flat P.ptr P.size)

/-- The last page the segments map at a page of the kernel, if any, is that page itself; a flat
binary ends below the stack of the kernel. -/
def LoadedImage.SparesKernel (kernelEnd : Nat) : LoadedImage → Prop
  | .elf image phdrs => ∀ k, KernelPage kernelEnd k →
    translation (LoadedImage.elf image phdrs).pages.reverse (k * pagingPageSize) = k * pagingPageSize
  | .flat _ size => bkeTaskProgramVirtualAddr + size + pagingPageSize ≤ tssEsp0

/-! ### Pages below the heap -/

theorem Space.malloc_low {sp : Space} {i ptr size : Nat} (hptr : heapBaseAddress ≤ ptr)
    (hk : k * heapBlockSize < heapBaseAddress) : (sp.malloc i ptr size).entry k = sp.entry k := by
  apply mapSelf_other
  intro hcov
  exact absurd (Nat.le_trans hptr hcov.1) (Nat.not_le.mpr hk)

theorem Space.free_low {sp : Space} {i : Nat} (hptr : heapBaseAddress ≤ (sp.allocation i).ptr)
    (hk : k * heapBlockSize < heapBaseAddress) : (sp.free i).entry k = sp.entry k := by
  apply mapSelf_other
  intro hcov
  exact absurd (Nat.le_trans hptr hcov.1) (Nat.not_le.mpr hk)

/-- Below the heap the words of `p` are those of `entry`. -/
def LowWords (C : Contract A) (s : Kernel H) (p : Nat) (entry : Nat → Nat) : Prop :=
  ∃ L sp, Populated C s L ∧ L.space p = some sp ∧ ∀ k, k * heapBlockSize < heapBaseAddress → sp.entry k = entry k

/-- The calls of a program leave the words below the heap. -/
theorem LifeStep.keeps_lowWords {u v : Lives H} {op : LifeOp} (hstep : LifeStep A u op v) (hop : op.CallFor p)
    (h : LowWords C u.kernel p entry) : LowWords C v.kernel p entry := by
  obtain ⟨L, sp, hpopulated, hsp, hlow⟩ := h
  cases hstep with
  | load _ => exact hop.elim
  | loadFails _ _ => exact hop.elim
  | terminate _ _ => exact hop.elim
  | @malloc q size ret t _ hmalloc =>
    obtain rfl : q = p := hop
    obtain ⟨_, _, ⟨_, h', _⟩ | ⟨i, n, _, _, _, _, hn, _, _, h'⟩⟩ :=
      ((hpopulated.malloc hsp size).mono (fun _ _ h => h) fun _ _ => trivial).returned hmalloc
    · exact ⟨L, sp, h', hsp, hlow⟩
    · have hlive : (L.malloc q sp i ret size n).pages ret ≠ 0 := by
        show Function.update L.pages ret n ret ≠ 0
        rw [Function.update_self]
        exact hn
      have hbase := (h'.accounts.placed.placed ret hlive).2.1
      refine ⟨_, _, h', Function.update_self .., fun k hk => ?_⟩
      rw [Space.malloc_low hbase hk]
      exact hlow k hk
  | @free q ptr t _ hfree =>
    obtain rfl : q = p := hop
    obtain ⟨_, h' | ⟨i, hi, _, h'⟩⟩ := (hpopulated.free hsp ptr).returned hfree
    · exact ⟨L, sp, h', hsp, hlow⟩
    · have hlive := ((hpopulated.recorded q sp hsp).owned i hi).2.1
      have hbase := (hpopulated.accounts.placed.placed _ hlive).2.1
      refine ⟨_, _, h', Function.update_self .., fun k hk => ?_⟩
      rw [Space.free_low hbase hk]
      exact hlow k hk

/-- So does every run of them. -/
theorem lowWords_of_run {u : Lives H} (hrun : Run (LifeStep A) (fun _ op => op.CallFor p) (· = ⟨t, (· = p)⟩) u)
    (h : LowWords C t p entry) : LowWords C u.kernel p entry :=
  hrun.invariant (I := fun u => LowWords C u.kernel p entry) (fun _ hu => hu ▸ h)
    fun _ _ _ hu hop hstep => hstep.keeps_lowWords hop hu

/-- A page below the heap, as the processor translates it. -/
theorem LowWords.mapped_iff (h : LowWords C s p entry) (hodd : ∀ k, entry k % 2 = 1) (hfollows : Follows entry history) :
    ∃ P T, s.process p = some P ∧ s.taskList.tasks P.task = some T ∧
      ∀ k, k * heapBlockSize < heapBaseAddress →
        (Present s.ram.mem (read32 s.ram.mem T.pageDirectory) (k * pagingPageSize) ∧
          physicalAddress s.ram.mem (read32 s.ram.mem T.pageDirectory) (k * pagingPageSize) = k * pagingPageSize ↔
        translation history (k * pagingPageSize) = k * pagingPageSize) := by
  obtain ⟨L, sp, hpopulated, hsp, hlow⟩ := h
  obtain ⟨P, T, D, hheld⟩ := hpopulated.accounts.held p sp hsp
  refine ⟨P, T, hheld.process, hheld.task, fun k hk => ?_⟩
  have hv : k * pagingPageSize < 2 ^ 32 := by
    simp only [heapBlockSize, heapBaseAddress, pagingPageSize] at *
    omega
  have hpage : k * pagingPageSize / pagingPageSize = k := Nat.mul_div_cancel k (by decide)
  have hk20 : k < 2 ^ 20 := by
    simp only [pagingPageSize] at hv
    omega
  obtain ⟨hdirectory, hentry⟩ := hheld.tables.pageEntry hv
  have hphysical := hheld.tables.physicalAddress hv
  obtain ⟨hlt, htranslate⟩ := hfollows k hk20
  rw [hpage, hlow k hk] at hentry hphysical
  rw [and_pageMask hlt, htranslate, Nat.mul_mod_left, Nat.add_zero] at hphysical
  rw [hheld.chunkOf.directory, hphysical]
  refine ⟨And.right, fun hself => ⟨⟨hdirectory, ?_⟩, hself⟩⟩
  rw [hentry]
  exact hodd k

/-! ### The pages of the program -/

/-- A range mapped last. -/
theorem translation_pagesFrom {vAddr pAddr count : Nat} (hv : vAddr + count * pagingPageSize ≤ 2 ^ 32)
    (hp : pAddr + count * pagingPageSize ≤ 2 ^ 32) (halign : vAddr % pagingPageSize = 0)
    (history : List (Nat × Nat)) (k : Nat) :
    translation ((pagesFrom vAddr pAddr count).reverse ++ history) (k * pagingPageSize) =
      if vAddr ≤ k * pagingPageSize ∧ k * pagingPageSize < vAddr + count * pagingPageSize then
        pAddr + (k * pagingPageSize - vAddr)
      else translation history (k * pagingPageSize) := by
  rw [translation_page, translation_page, List.find?_append]
  cases hfind : (pagesFrom vAddr pAddr count).reverse.find? (·.1 = k * pagingPageSize) with
  | some m =>
    have hpage : m.1 = k * pagingPageSize := by simpa using List.find?_some hfind
    obtain ⟨i, hi, rfl⟩ := (mem_pagesFrom hv hp).mp (List.mem_reverse.mp (List.mem_of_find?_eq_some hfind))
    simp only [pagingPageSize] at hpage ⊢
    rw [if_pos (by omega)]
    show pAddr + i * 4096 = _
    omega
  | none =>
    rw [if_neg ?_]
    · rfl
    · rintro ⟨hle, hlt⟩
      have hnone := List.find?_eq_none.mp hfind (k * pagingPageSize, pAddr + (k * pagingPageSize - vAddr))
      refine hnone (List.mem_reverse.mpr ((mem_pagesFrom hv hp).mpr
        ⟨(k * pagingPageSize - vAddr) / pagingPageSize, ?_, ?_⟩))
        (decide_eq_true rfl)
      · simp only [pagingPageSize] at *
        omega
      · simp only [pagingPageSize, Prod.mk.injEq] at *
        omega

theorem flat_odd {stack : Nat} (hstack : stack % pagingPageSize = 0) {ptr : Nat} (hptr : ptr % pagingPageSize = 0)
    (size k : Nat) : stackEntries (flatEntries newEntry ptr size) stack k % 2 = 1 := by
  apply mapEntries_odd (by decide) fun m hm => (pagesFrom_aligned (by decide) hstack m hm).2.1
  apply mapEntries_odd (by decide) fun m hm => (pagesFrom_aligned (by decide) hptr m hm).2.1
  intro k
  show (k * 4096 + 5) % 2 = 1
  omega

theorem follows_flat {stack : Nat} (hstack : stack % pagingPageSize = 0) {ptr : Nat} (hptr : ptr % pagingPageSize = 0)
    (size : Nat) : Follows (stackEntries (flatEntries newEntry ptr size) stack)
      ((pagesFrom bkeTaskProgramVirtualStackAddrEnd stack (bkeTaskUserStackSize / pagingPageSize)).reverse ++
        (LoadedImage.flat ptr size).pages.reverse) := by
  have hflat := (follows_identity (show pagingMasksIsPresent ||| pagingMasksAccessAll < 2 ^ 8 by decide)).mapEntries
    (show rightsWritable < pagingPageSize by decide) (@pagesFrom_aligned bkeTaskProgramVirtualAddr ptr
      ((pagingAlignAddress (u32 (ptr + size)) - ptr) / pagingPageSize) (by decide) hptr)
  rw [List.append_nil] at hflat
  exact hflat.mapEntries (by decide) (pagesFrom_aligned (by decide) hstack)

/-- What a load maps: the pages of its image, and then those of its stack. -/
theorem Loads.words (h : Loads C vol filename s p t) (hvalid : C.Valid s.ram.heap) :
    ∃ image stack entry, LoadedFrom C vol filename t p image ∧ LowWords C t p entry ∧ C.Valid t.ram.heap ∧
      C.pages t.ram stack ≠ 0 ∧ bkeTaskUserStackSize ≤ C.pages t.ram stack * heapBlockSize ∧
      (∀ k, entry k % 2 = 1) ∧
      Follows entry ((pagesFrom bkeTaskProgramVirtualStackAddrEnd stack (bkeTaskUserStackSize / pagingPageSize)).reverse ++
        image.pages.reverse) := by
  cases h with
  | @mk P other D chunk entry u processes current frame new =>
    obtain ⟨harrival, hpopulated, _⟩ := (populated_empty hvalid).arrival frame new
    have hlow : LowWords C {u with processes := processes, currentProcess := current} p entry :=
      ⟨_, newSpace entry, hpopulated.congr rfl rfl rfl rfl, by rw [harrival.space, Function.update_self],
        fun _ _ => rfl⟩
    have hstack := (new.taken.fresh P.stack (by simp)).2
    have halign := (C.placed new.taken.valid hstack).1
    obtain ⟨T, hT, _⟩ := loadTask_chunk new.mapped.directory
    cases new.mapped.image with
    | elf hfiletype _ _ _ =>
      obtain ⟨F, record, phdrs, hF, hholds, hheaders, rfl⟩ := new.elf hfiletype
      refine ⟨.elf F.elfMemory phdrs, P.stack, _, ?_, hlow, new.taken.valid, hstack, new.mapped.room,
        image_odd halign _ phdrs, ?_⟩
      · exact .elf (.mk (t := {u with processes := processes, currentProcess := current}) new.made hfiletype hF hT hholds)
          hheaders
      · have hfollows := follows_image halign F.elfMemory phdrs
        unfold imagePages at hfollows
        rw [List.reverse_append] at hfollows
        exact hfollows
    | @flat record hfiletype hsize hholds =>
      have hptr := (C.placed new.taken.valid hholds.live).1
      cases new.mapped.layout with
      | elf helf _ _ => exact absurd (hfiletype.symm.trans helf) (by decide)
      | flat _ =>
        exact ⟨.flat P.ptr P.size, P.stack, _, .flat new.made hfiletype hsize hholds, hlow, new.taken.valid, hstack,
          new.mapped.room, flat_odd halign hptr P.size, follows_flat halign hptr P.size⟩

/-- A flat binary is at its address, and its last page may be in part. -/
theorem flat_translation {ptr size : Nat} (halign : ptr % pagingPageSize = 0) (hptr : bkeTaskProgramVirtualAddr ≤ ptr)
    (hfits : ptr + size + pagingPageSize ≤ 2 ^ 32) (k : Nat) :
    translation (LoadedImage.flat ptr size).pages.reverse (k * pagingPageSize) =
      if bkeTaskProgramVirtualAddr ≤ k * pagingPageSize ∧ k * pagingPageSize < bkeTaskProgramVirtualAddr + size then
        ptr + (k * pagingPageSize - bkeTaskProgramVirtualAddr)
      else k * pagingPageSize := by
  obtain ⟨hle, hlt, hrounded⟩ := pagingAlignAddress_of_le hfits
  have hsum : u32 (ptr + size) = ptr + size := u32_of_lt (by simp only [pagingPageSize] at hfits; omega)
  generalize hcount : (pagingAlignAddress (ptr + size) - ptr) / pagingPageSize = count
  have hpages : size ≤ count * pagingPageSize ∧ count * pagingPageSize < size + pagingPageSize := by
    simp only [pagingPageSize] at *
    omega
  have hv : bkeTaskProgramVirtualAddr + count * pagingPageSize ≤ 2 ^ 32 := by omega
  have hp : ptr + count * pagingPageSize ≤ 2 ^ 32 := by omega
  have hmapped := translation_pagesFrom hv hp (by decide) [] k
  rw [List.append_nil, translation_page [], List.find?_nil] at hmapped
  show translation (pagesFrom bkeTaskProgramVirtualAddr ptr
    ((pagingAlignAddress (u32 (ptr + size)) - ptr) / pagingPageSize)).reverse _ = _
  rw [hsum, hcount, hmapped]
  refine if_congr ?_ rfl rfl
  simp only [bkeTaskProgramVirtualAddr, pagingPageSize] at *
  omega

/-! ### The kernel beside the program -/

theorem KernelPage.low {kernelEnd : Nat} (h : KernelPage kernelEnd k)
    (hend : kernelEnd ≤ bkeTaskProgramVirtualStackAddrEnd) :
    k * heapBlockSize < heapBaseAddress ∧ ¬ (bkeTaskProgramVirtualStackAddrEnd ≤ k * pagingPageSize ∧
      k * pagingPageSize < bkeTaskProgramVirtualStackAddrEnd + 4 * pagingPageSize) := by
  unfold KernelPage at h
  simp only [kernelBase, tssEsp0, bkeTaskProgramVirtualStackAddrEnd, bkeTaskProgramVirtualStackAddrStart,
    bkeTaskUserStackSize, pagingPageSize, heapBlockSize, heapBaseAddress] at *
  omega

/-- In terms of the pages mapped, the condition is the same for both formats. -/
theorem LoadedFrom.spares_iff {image : LoadedImage} {kernelEnd : Nat} (h : LoadedFrom C vol filename t p image)
    (hvalid : C.Valid t.ram.heap) (hend : kernelEnd ≤ bkeTaskProgramVirtualStackAddrEnd) :
    image.SparesKernel kernelEnd ↔ ∀ k, KernelPage kernelEnd k →
      translation image.pages.reverse (k * pagingPageSize) = k * pagingPageSize := by
  cases h with
  | elf _ _ => exact Iff.rfl
  | @flat P record _ _ hsize hholds =>
    have hroom : P.size ≤ C.pages t.ram P.ptr * heapBlockSize := hsize ▸ hholds.room
    obtain ⟨halign, hbase, hlast⟩ := C.placed hvalid hholds.live
    change P.ptr + C.pages t.ram P.ptr * heapBlockSize ≤ _ at hlast
    have htranslation := @flat_translation P.ptr P.size halign (Nat.le_trans (by decide) hbase) (by
      simp only [heapBaseAddress, heapMaxHeapSize, pagingPageSize] at *
      omega)
    constructor
    · intro hspares k hk
      rw [htranslation, if_neg]
      unfold LoadedImage.SparesKernel at hspares
      unfold KernelPage at hk
      simp only [kernelBase, tssEsp0, bkeTaskProgramVirtualStackAddrEnd, bkeTaskProgramVirtualStackAddrStart,
        bkeTaskUserStackSize, bkeTaskProgramVirtualAddr, pagingPageSize] at *
      omega
    · intro hself
      have hstack := hself 0x5FF (.inr rfl)
      rw [htranslation] at hstack
      show bkeTaskProgramVirtualAddr + P.size + pagingPageSize ≤ tssEsp0
      split at hstack
      · exfalso
        simp only [heapBaseAddress, bkeTaskProgramVirtualAddr, pagingPageSize] at *
        omega
      · rename_i hout
        simp only [tssEsp0, bkeTaskProgramVirtualAddr, pagingPageSize] at *
        omega

/-- The stack of the program is never where the kernel is. -/
theorem kernelEnd_le {kernelEnd stack : Nat} {pages : List (Nat × Nat)} (hstack : heapBaseAddress ≤ stack)
    (hfits : stack + bkeTaskUserStackSize ≤ 2 ^ 32)
    (hself : ∀ k, KernelPage kernelEnd k → k * heapBlockSize < heapBaseAddress →
      translation ((pagesFrom bkeTaskProgramVirtualStackAddrEnd stack (bkeTaskUserStackSize / pagingPageSize)).reverse ++
        pages) (k * pagingPageSize) = k * pagingPageSize) : kernelEnd ≤ bkeTaskProgramVirtualStackAddrEnd := by
  by_contra hend
  have hpage := hself 0x3FB (.inl ⟨by decide, Nat.lt_of_not_le hend⟩) (by decide)
  rw [translation_pagesFrom (by decide) hfits (by decide), if_pos (by decide)] at hpage
  simp only [heapBaseAddress, bkeTaskProgramVirtualStackAddrEnd, bkeTaskProgramVirtualStackAddrStart,
    bkeTaskUserStackSize, pagingPageSize] at *
  omega

/-- Of a process whose image and stack are the pages mapped last, the kernel is mapped when the image
spares it. -/
theorem LowWords.kernelMapped {image : LoadedImage} {stack kernelEnd : Nat} (h : LowWords C s p entry)
    (himage : LoadedFrom C vol filename t p image) (hvalid : C.Valid t.ram.heap) (hstack : C.pages t.ram stack ≠ 0)
    (hroom : bkeTaskUserStackSize ≤ C.pages t.ram stack * heapBlockSize) (hodd : ∀ k, entry k % 2 = 1)
    (hfollows : Follows entry ((pagesFrom bkeTaskProgramVirtualStackAddrEnd stack
      (bkeTaskUserStackSize / pagingPageSize)).reverse ++ image.pages.reverse)) :
    KernelMapped kernelEnd s p ↔ kernelEnd ≤ bkeTaskProgramVirtualStackAddrEnd ∧ image.SparesKernel kernelEnd := by
  obtain ⟨_, hbase, hlast⟩ := C.placed hvalid hstack
  change stack + C.pages t.ram stack * heapBlockSize ≤ _ at hlast
  have hfits : stack + bkeTaskUserStackSize ≤ 2 ^ 32 := by
    simp only [heapBaseAddress, heapMaxHeapSize] at *
    omega
  obtain ⟨P, T, hP, hT, hmapped⟩ := h.mapped_iff hodd hfollows
  -- the stack of the program is apart from the kernel
  have hsegments : ∀ k, KernelPage kernelEnd k → kernelEnd ≤ bkeTaskProgramVirtualStackAddrEnd →
      translation ((pagesFrom bkeTaskProgramVirtualStackAddrEnd stack (bkeTaskUserStackSize / pagingPageSize)).reverse ++
        image.pages.reverse) (k * pagingPageSize) = translation image.pages.reverse (k * pagingPageSize) := by
    intro k hk hend
    rw [translation_pagesFrom (by decide) hfits (by decide)]
    exact if_neg (hk.low hend).2
  constructor
  · rintro ⟨P', T', hP', hT', hpages⟩
    obtain rfl : P = P' := Option.some_inj.mp (hP.symm.trans hP')
    obtain rfl : T = T' := Option.some_inj.mp (hT.symm.trans hT')
    have hend := kernelEnd_le hbase hfits fun k hk hklow => (hmapped k hklow).mp (hpages k hk)
    refine ⟨hend, (himage.spares_iff hvalid hend).mpr fun k hk => ?_⟩
    rw [← hsegments k hk hend]
    exact (hmapped k (hk.low hend).1).mp (hpages k hk)
  · rintro ⟨hend, hspares⟩
    refine ⟨P, T, hP, hT, fun k hk => (hmapped k (hk.low hend).1).mpr ?_⟩
    rw [hsegments k hk hend]
    exact (himage.spares_iff hvalid hend).mp hspares k hk

/-- **The kernel stays mapped exactly when the program is loaded beside it**: in every state after the
load, whatever the program allocated and released, the pages of the kernel are present and mapped
to themselves just when its image ends below the stacks of programs and the segments spare it. -/
theorem kernelMapped_iff (hvalid : C.Valid s.ram.heap)
    (hload : processLoad A vol junk filename s = .ok ((0, some p), t)) :
    ∃ image, LoadedFrom C vol filename t p image ∧
      ∀ u, Run (LifeStep A) (fun _ op => op.CallFor p) (· = ⟨t, (· = p)⟩) u → ∀ kernelEnd,
        (KernelMapped kernelEnd u.kernel p ↔
          kernelEnd ≤ bkeTaskProgramVirtualStackAddrEnd ∧ image.SparesKernel kernelEnd) := by
  obtain ⟨image, stack, entry, himage, hlow, hvalid', hstack, hroom, hodd, hfollows⟩ :=
    (processLoad_made hvalid hload).words hvalid
  exact ⟨image, himage, fun u hrun kernelEnd =>
    (lowWords_of_run hrun hlow).kernelMapped himage hvalid' hstack hroom hodd hfollows⟩

/-! ### Programs beside the kernel and over it -/

/-- The format and the length of the program that `flatVolume` has. -/
def flatLoaded : Option (Int × Option Nat) × Option (Nat × Nat) :=
  match processLoad ladder flatVolume ⟨0, 0⟩ pathX noProcesses with
  | .ok (out, s) => (some out, (s.process 0x1000000).map fun P => (P.filetype, P.size))
  | .error _ => (none, none)

/-- The program of `programFile`, linked at 0x100000. -/
def overlayFile : List UInt8 := (programFile 0 100).set 62 0x10

def overlayVolume : Volume where
  disk a := if a < 1536 then smallDisk a else overlayFile.getD (a - 1536) 0
  mounted := some ⟨fatHeader smallDisk, [programRecord], 1, 2, 3⟩

/-- Its process before anything is loaded. -/
def overlayKernel : Kernel Ladder :=
  (noProcesses.withRam ⟨⟨1, [0x1000000]⟩, fill noProcesses.ram.mem 0x1000000 sizeofProcess 0⟩).putProcess 0x1000000
    (some zeroProcess)

/-- How its load ends before the mapping, and the format found. -/
def overlayUnmapped : Option (Option Int × Option Nat) :=
  match loadUnmapped ladder overlayVolume 0 pathX 0 0x1000000 overlayKernel with
  | .ok (out, s) => some (out, (s.process 0x1000000).map Process.filetype)
  | .error _ => none

set_option maxRecDepth 100000 in
theorem programs_loaded : flatLoaded = (some (0, some 0x1000000), some (processFormatFbin, 512)) ∧
    overlayUnmapped = some (none, some processFormatElf) ∧
    fileImage overlayVolume programRecord = (1, overlayFile) := by decide +kernel

/-- A flat binary of 512 bytes is beside a kernel that ends at 0x180000. -/
theorem kernelMapped_flat : ∃ t, processLoad ladder flatVolume ⟨0, 0⟩ pathX noProcesses = .ok ((0, some 0x1000000), t) ∧
    KernelMapped 0x180000 t 0x1000000 := by
  have hflat := programs_loaded.1
  unfold flatLoaded at hflat
  cases hload : processLoad ladder flatVolume ⟨0, 0⟩ pathX noProcesses with
  | error e =>
    rw [hload] at hflat
    cases hflat
  | ok a =>
    obtain ⟨out, t⟩ := a
    rw [hload] at hflat
    obtain ⟨hout, hprocess⟩ := Prod.mk.inj hflat
    obtain rfl := Option.some_inj.mp hout
    obtain ⟨P, hP, hP'⟩ := Option.map_eq_some_iff.mp hprocess
    obtain ⟨hfiletype, hsize⟩ := Prod.mk.inj hP'
    obtain ⟨image, himage, hruns⟩ := kernelMapped_iff (C := ladderContract) noProcesses_valid hload
    refine ⟨t, rfl, (hruns _ (.start rfl) _).mpr ⟨by decide, ?_⟩⟩
    cases himage with
    | @elf _ _ _ _ _ made _ =>
      cases made with
      | mk hQ helf _ _ _ =>
        obtain rfl := Option.some_inj.mp (hP.symm.trans hQ)
        exact absurd (helf.symm.trans hfiletype) (by decide)
    | flat hQ _ _ _ =>
      obtain rfl := Option.some_inj.mp (hP.symm.trans hQ)
      show bkeTaskProgramVirtualAddr + P.size + pagingPageSize ≤ tssEsp0
      rw [hsize]
      decide

/-! ### A program over the kernel -/

theorem overlayFile_headers : HeadersInFile overlayFile := by
  refine ⟨?_, rfl, ?_⟩
  · show 46 ≤ 100
    decide
  · show 52 + 1 * 32 ≤ 100
    decide

theorem overlay_phdrs : fileHeaders overlayFile = [⟨ptLoad, 0, 0x100000, 100, 100, 5⟩] := by decide

/-- The volume has no other file. -/
theorem overlay_named {record : FatDirectoryItem} (h : overlayVolume.Names pathX record) : record = programRecord := by
  obtain ⟨priv, hmounted, i, full, hi, hrecord, _⟩ := h
  obtain rfl := Option.some_inj.mp hmounted
  have hi : i < 1 := hi
  obtain rfl : i = 0 := by omega
  exact (Option.some_inj.mp hrecord).symm

theorem fileRead_overlay : fileRead overlayVolume programRecord = overlayFile := by
  unfold fileRead
  rw [programs_loaded.2.2]
  decide

theorem overlayKernel_valid : ladderContract.Valid overlayKernel.ram.heap :=
  ⟨by decide, fun p hp => ⟨0, by decide, List.mem_singleton.mp hp⟩⟩

/-- A segment of 100 bytes from the start of a page maps that page. -/
theorem segment_page {image offset vAddr : Nat} (flags : Nat) (halign : image % pagingPageSize = 0)
    (hoffset : offset % pagingPageSize = 0) (hvAddr : vAddr % pagingPageSize = 0) (hv : vAddr < 2 ^ 32)
    (hfits : image + offset + 0x2000 ≤ 2 ^ 32) :
    segmentPages image ⟨ptLoad, offset, vAddr, 100, 100, flags⟩ = [(vAddr, image + offset)] ∧
      Elf32Phdr.Ends image ⟨ptLoad, offset, vAddr, 100, 100, flags⟩ := by
  have hphysical : elfPhdrComputePhysicalAddress image ⟨ptLoad, offset, vAddr, 100, 100, flags⟩ = image + offset :=
    u32_of_lt (show image + offset < 2 ^ 32 by omega)
  have hend : pagingAlignAddress (u32 (image + offset + 100)) = image + offset + pagingPageSize := by
    unfold pagingAlignAddress u32
    simp only [pagingPageSize] at *
    rw [if_pos (by omega)]
    omega
  have hstart : ∀ a, a % pagingPageSize = 0 → pagingAlignToLowerPageAddr a = a := by
    intro a ha
    unfold pagingAlignToLowerPageAddr
    rw [ha, Nat.sub_zero]
  have hpage : pagingAlignToLowerPageAddr (image + offset) = image + offset := hstart _ (by
    simp only [pagingPageSize] at *
    omega)
  constructor
  · unfold segmentPages
    simp only [hphysical, hpage, hstart vAddr hvAddr, hend, Nat.add_sub_cancel_left]
    show [(u32 (vAddr + 0 * pagingPageSize), u32 (image + offset + 0 * pagingPageSize))] = _
    rw [Nat.zero_mul, Nat.add_zero, Nat.add_zero, u32_of_lt hv, u32_of_lt (show image + offset < 2 ^ 32 by omega)]
  · unfold Elf32Phdr.Ends
    rw [hphysical, hpage, hend]
    exact Nat.le_add_right (image + offset) pagingPageSize

/-- The segment of the program maps one page, that of the file. -/
theorem overlay_segment {image : Nat} (halign : image % pagingPageSize = 0)
    (hlast : image ≤ heapBaseAddress + heapMaxHeapSize) :
    segmentPages image ⟨ptLoad, 0, 0x100000, 100, 100, 5⟩ = [(0x100000, image)] ∧
      Elf32Phdr.Ends image ⟨ptLoad, 0, 0x100000, 100, 100, 5⟩ := by
  refine segment_page 5 halign rfl (by decide) (by decide) ?_
  simp only [heapBaseAddress, heapMaxHeapSize] at hlast
  omega

/-- A load of an ELF file goes through if its program headers are in it and its segments end behind their starts. -/
theorem loadInto_elf {fd slot : Int} {v : Kernel H} {P₀ P : Process} (hvalid : C.Valid s.ram.heap)
    (hP₀ : s.process p = some P₀) (hnull : P₀.task = 0 ∧ P₀.stack = 0 ∧ P₀.ptr = 0)
    (hload : loadUnmapped A vol fd filename slot p s = .ok (none, v)) (hP : v.process p = some P)
    (hfiletype : P.filetype = processFormatElf)
    (hends : ∀ image record, vol.Names filename record → image % pagingPageSize = 0 →
      image ≤ heapBaseAddress + heapMaxHeapSize →
        HeadersInFile (fileRead vol record) ∧ ∀ phdr ∈ fileHeaders (fileRead vol record), phdr.Ends image) :
    ∃ w, loadInto A vol fd filename slot p s = .ok ((0, true), w) ∧ w.process p = some P := by
  rcases (loadUnmapped_spec hP₀ hnull (Taken.refl hvalid)).returned hload with
    ⟨hout, _⟩ | ⟨_, _, P', other, hP', _, ⟨res, hout, _⟩ | ⟨_, _, D, chunk, h, htaken⟩⟩
  · cases hout
  · cases hout
  obtain rfl : P = P' := Option.some_inj.mp (hP.symm.trans hP')
  cases h.image with
  | flat hflat _ _ => exact absurd (hfiletype.symm.trans hflat) (by decide)
  | @elf F record _ hF hmemory hholds =>
    subst hmemory
    have himage := hholds.elfImage htaken.valid
    obtain ⟨halign, _, hlast⟩ := C.placed htaken.valid hholds.live
    change F.elfMemory + C.pages v.ram F.elfMemory * heapBlockSize ≤ _ at hlast
    obtain ⟨hfile, hsegments⟩ := hends F.elfMemory record hholds.names halign (Nat.le_trans (Nat.le_add_right ..) hlast)
    have hreturns : wp (processMapMemory p) (fun res _ => res = 0) (fun _ => False) v := by
      refine processMapMemory_returns hP h.directory h.chunkOf h.tables hfiletype hF
        (himage.stableHeaders hfile (hholds.outside_tables htaken (by simp))) ?_
      rw [himage.headersFrom hfile]
      exact hsegments
    obtain ⟨res, w, hmap, hres⟩ := hreturns.returns
    obtain ⟨mem, _, rfl, _⟩ := (processMapMemory_spec hP h).returned hmap
    refine ⟨v.withRam {v.ram with mem := mem}, ?_, hP⟩
    rw [loadInto_eq, bind_apply, hload]
    show (processMapMemory p >>= fun res => pure (res, true)) v = _
    rw [bind_apply, hmap, hres]
    rfl

/-- Its mapping goes through. -/
theorem overlay_mapped : ∃ w P, loadInto ladder overlayVolume 0 pathX 0 0x1000000 overlayKernel = .ok ((0, true), w) ∧
    w.process 0x1000000 = some P ∧ P.filetype = processFormatElf := by
  have hunmapped := programs_loaded.2.1
  unfold overlayUnmapped at hunmapped
  cases hload : loadUnmapped ladder overlayVolume 0 pathX 0 0x1000000 overlayKernel with
  | error e =>
    rw [hload] at hunmapped
    cases hunmapped
  | ok a =>
    obtain ⟨out, v⟩ := a
    rw [hload] at hunmapped
    obtain ⟨rfl, hprocess⟩ := Prod.mk.inj (Option.some_inj.mp hunmapped)
    obtain ⟨P, hP, hfiletype⟩ := Option.map_eq_some_iff.mp hprocess
    obtain ⟨w, hinto, hw⟩ := loadInto_elf overlayKernel_valid
      (show overlayKernel.process 0x1000000 = some zeroProcess from rfl) ⟨rfl, rfl, rfl⟩ hload hP hfiletype
      fun image record hnames halign hlast => by
        obtain rfl := overlay_named hnames
        rw [fileRead_overlay, overlay_phdrs]
        exact ⟨overlayFile_headers, List.forall_mem_singleton.mpr (overlay_segment halign hlast).2⟩
    exact ⟨w, P, hinto, hw, hfiletype⟩

/-- A load is done once the process is made. -/
theorem processLoad_of_loadInto {r : Ram H} {w : Kernel H} {process : Nat} {slot : Int}
    (hslot : s.getFreeProcessSlot = slot)
    (hrange : 0 ≤ slot ∧ slot < basicOSMaxProcesses) (hfree : s.getProcess slot = 0)
    (hnew : onRam (kzalloc A sizeofProcess) s = .ok (process, s.withRam r)) (hne : process ≠ 0)
    (hinto : loadInto A vol junk.fd filename slot process ((s.withRam r).putProcess process (some zeroProcess)) =
      .ok ((0, true), w)) :
    processLoad A vol junk filename s =
      .ok ((0, some process), {w with processes := Function.update w.processes slot.toNat process}) := by
  have hset : setProcess slot process w = .ok ((), {w with processes := Function.update w.processes slot.toNat process}) := by
    unfold setProcess
    rw [when_false (by omega)]
    rfl
  unfold processLoad processLoadForSlot
  rw [bind_apply, get_apply]
  simp only
  rw [hslot, if_neg (by omega), bind_apply, get_apply]
  simp only
  rw [hfree, if_neg (by decide), bind_apply, hnew]
  simp only
  rw [if_neg hne, bind_apply, modify_apply]
  simp only
  rw [bind_apply, hinto]
  simp only
  rw [if_neg (by decide), if_neg (by decide), bind_apply, hset]
  rfl

/-- The first process of an empty table. -/
theorem processLoad_first {vol : Volume} {w : Kernel Ladder}
    (hinto : loadInto ladder vol 0 pathX 0 0x1000000 overlayKernel = .ok ((0, true), w)) :
    processLoad ladder vol ⟨0, 0⟩ pathX noProcesses =
      .ok ((0, some 0x1000000), {w with processes := Function.update w.processes 0 0x1000000}) := by
  have hslot : noProcesses.getFreeProcessSlot = 0 := by decide
  have hnew : onRam (kzalloc ladder sizeofProcess) noProcesses = .ok (0x1000000, noProcesses.withRam
    ⟨⟨1, [0x1000000]⟩, fill noProcesses.ram.mem 0x1000000 sizeofProcess 0⟩) := rfl
  exact processLoad_of_loadInto hslot (by decide) (by decide) hnew (by decide) hinto

/-- It is loaded. -/
theorem overlay_loaded : ∃ t P, processLoad ladder overlayVolume ⟨0, 0⟩ pathX noProcesses = .ok ((0, some 0x1000000), t) ∧
    t.process 0x1000000 = some P ∧ P.filetype = processFormatElf := by
  obtain ⟨w, P, hinto, hP, hfiletype⟩ := overlay_mapped
  exact ⟨_, P, processLoad_first hinto, hP, hfiletype⟩

/-- **A program over the kernel**: one linked at 0x100000 is loaded, and its directory shows its file there. -/
theorem kernelMapped_overlaid : ¬ ∀ (s t : Kernel Ladder) (vol : Volume) (junk : Uninitialised) (filename : List UInt8)
    (p kernelEnd : Nat), ladderContract.Valid s.ram.heap → kernelEnd ≤ bkeTaskProgramVirtualStackAddrEnd →
    processLoad ladder vol junk filename s = .ok ((0, some p), t) →
    ∀ u, Run (LifeStep ladder) (fun _ op => op.CallFor p) (· = ⟨t, (· = p)⟩) u → KernelMapped kernelEnd u.kernel p := by
  intro h
  obtain ⟨t, P, hload, hP, hfiletype⟩ := overlay_loaded
  have hmapped := h _ t _ _ _ _ 0x180000 noProcesses_valid (by decide) hload _ (.start rfl)
  obtain ⟨image, stack, entry, himage, hlow, hvalid, hstack, hroom, hodd, hfollows⟩ :=
    (processLoad_made (C := ladderContract) noProcesses_valid hload).words noProcesses_valid
  have hspares := ((hlow.kernelMapped himage hvalid hstack hroom hodd hfollows).mp hmapped).2
  cases himage with
  | flat hQ hflat _ _ =>
    obtain rfl := Option.some_inj.mp (hP.symm.trans hQ)
    exact absurd (hfiletype.symm.trans hflat) (by decide)
  | elf made hheaders =>
    cases made with
    | @mk _ F _ record _ _ _ _ hholds =>
      obtain rfl := overlay_named hholds.names
      rw [fileRead_overlay] at hheaders
      obtain rfl := hheaders overlayFile_headers
      obtain ⟨halign, hbase, hlast⟩ := ladderContract.placed hvalid hholds.live
      change F.elfMemory + ladderContract.pages t.ram F.elfMemory * heapBlockSize ≤ _ at hlast
      have hend : F.elfMemory ≤ heapBaseAddress + heapMaxHeapSize := Nat.le_trans (Nat.le_add_right ..) hlast
      have hpages : (LoadedImage.elf F.elfMemory (fileHeaders overlayFile)).pages = [(0x100000, F.elfMemory)] := by
        rw [overlay_phdrs]
        show List.flatMap (segmentPages F.elfMemory) [_] = _
        rw [List.flatMap_singleton, (overlay_segment halign hend).1]
      have hpage := hspares 0x100 (.inl (by decide))
      rw [hpages] at hpage
      have hself : translation [(0x100 * pagingPageSize, F.elfMemory)] (0x100 * pagingPageSize) = F.elfMemory := by
        rw [translation_page]
        simp
      have hlow : heapBaseAddress ≤ 0x100 * pagingPageSize := by
        rw [← show F.elfMemory = 0x100 * pagingPageSize from hself.symm.trans hpage]
        exact hbase
      exact absurd hlow (by decide)

end BasicOS

import BasicOS.Isr80h.Printing
import BasicOS.Process.Requests
import BasicOS.Terminal.Sheet

/-! A message on its way to the screen.

A program hands `print` an address. The kernel copies the string through the program's directory into a buffer of its
own and puts it on the terminal, character by character, white on black. Where the program can write the string, its
bytes are the program's own, so the block the copy goes through can only get in the way where its page is laid over one
of the string's. Otherwise what appears is the string the program sees (`print_appears`). -/
namespace BasicOS
open Lib Program

variable {H : Type} {A : Allocator H} {C : Contract A}

/-- `print`, on a terminal. -/
def printTo (str : Nat) (t : Terminal) : Program Stop (Ram H) Terminal := do
  let chars ← print str
  return terminalRun {t with terminalFgColor := textModeColorsWhite, terminalBgColor := textModeColorsBlack} chars

/-- `isr_sys_print`, on a terminal. -/
def isrSysPrintTo (A : Allocator H) (pageDirectory buf userSpaceMsgBuf : Nat) (t : Terminal) :
    Program Stop (Ram H) Terminal := do
  let call ← isrSysPrint A pageDirectory buf userSpaceMsgBuf
  printTo call.str t

/-- The string a program sees at an address, as far as `isr_sys_print` copies it. -/
def messageAt (mem : Memory) (directory msg : Nat) : List UInt8 := stringAt (userView mem directory) msg 1023

/-! ### The call -/

section Call

variable {r : Ram H} {D : DirectoryBlocks} {entry : Nat → Nat} {chunk buf msg : Nat} {t : Terminal}

/-- The block the heap has for a copy is one that nothing reaches. -/
theorem scratch_nextBlock {size : Nat} (hvalid : C.Valid r.heap) (hblock : nextBlock A size r.heap ≠ 0) :
    Scratch C r D (nextBlock A size r.heap) := by
  have hzalloc := wp_kzalloc (A := A) hvalid size
  cases hrun : kzalloc A size r with
  | error e =>
    have hnone := (wp_error hrun).mp hzalloc
    unfold nextBlock at hblock
    rw [hnone] at hblock
    exact absurd rfl hblock
  | ok out =>
    obtain ⟨ptr, r₁⟩ := out
    obtain ⟨hvalid₁, hans, hanswer⟩ := hzalloc.returned hrun
    rw [nextBlock_answer hanswer] at hblock ⊢
    have htaken := hans.taken hvalid₁
    rw [if_neg hblock] at htaken
    have hpages := (htaken.fresh ptr (List.mem_singleton_self ptr)).2
    exact ⟨C.isPage hvalid₁ hpages, fun b h1 h2 =>
      htaken.not_inUse (List.mem_singleton_self ptr) (Contract.holds_page hpages h1 h2)⟩

/-- Where the heap has a block for the copy, and the string is present and undisturbed, it is what is printed. -/
theorem isrSysPrintTo_spec (hvalid : C.Valid r.heap) (hdir : DirectoryInUse C r D chunk) (htables : Tables D entry r.mem)
    (hmsg : msg < 2 ^ 32) (hbuf : ∀ b, buf ≤ b → b < buf + 1024 → C.InUse r b) (hend : buf + 1024 ≤ 2 ^ 32)
    (hblock : nextBlock A 1024 r.heap ≠ 0) (hundisturbed : Undisturbed D r.mem (nextBlock A 1024 r.heap) msg 1024)
    (hpresent : ∀ i, i < 1023 → i ≤ (messageAt r.mem D.directory msg).length →
      entry (u32 (msg + i) / pagingPageSize) % 2 = 1) :
    wp (isrSysPrintTo A chunk buf msg t) (fun t' r' =>
      t' = terminalRun {t with terminalFgColor := textModeColorsWhite, terminalBgColor := textModeColorsBlack}
        (messageAt r.mem D.directory msg) ∧ C.live r'.heap = C.live r.heap ∧
      ∀ b, C.InUse r b → ¬ Extent.Holds ⟨buf, 1024⟩ b → r'.mem b = r.mem b) (fun _ => False) r := by
  have hscratch := scratch_nextBlock (D := D) hvalid hblock
  have hfound := (foundText_iff (hscratch.word_apart hdir (show 1024 ≤ pagingPageSize by decide))).mpr hundisturbed
  unfold isrSysPrintTo isrSysPrint
  refine (wp_bind _ _).mpr ((wp_bind _ _).mpr ((wp_copyStringFromTask_inUse hvalid hdir htables hmsg (by decide)
    (by decide) hbuf).mono (fun res r' hcopy => ?_) fun _ hstopped => ?_))
  · obtain ⟨_, hlive, hsame, htext⟩ := hcopy
    rw [if_neg hblock] at htext
    obtain ⟨text, hread, hstored⟩ := htext
    obtain rfl : text = messageAt r.mem D.directory msg := hread.unique hfound
    have hlen := hread.length
    rw [wp_bind, wp_get, wp_pure]
    unfold printTo
    rw [wp_bind, wp_ok ((print_iff (by omega)).mpr ⟨rfl, hread.nonzero, hstored⟩)]
    exact ⟨rfl, hlive, hsame⟩
  · rcases hstopped with hnone | ⟨_, hunread⟩
    · unfold nextBlock at hblock
      rw [hnone] at hblock
      exact hblock rfl
    · obtain ⟨i, hi, hle, habsent⟩ := hunread _ hfound
      exact habsent (hpresent i hi hle)

end Call

/-! ### Programs that print -/

section Programs

variable {held : Nat → Prop} {s : Lives H} {p msg buf directory : Nat} {P : Process} {T : Task} {t : Terminal}

/-- The program can write the string at the address, and the page of the block is laid over none of its bytes. -/
def OwnMessage (A : Allocator H) (r : Ram H) (directory msg : Nat) : Prop :=
  ∀ i, i < 1023 → i ≤ (messageAt r.mem directory msg).length → UserWritable r.mem directory (u32 (msg + i)) ∧
    u32 (msg + i) / pagingPageSize ≠ nextBlock A 1024 r.heap / pagingPageSize

/-- A string of the program's own is undisturbed: the block is new, and the word of its page is in no block of the
program's own. -/
theorem OwnMessage.undisturbed {L : Ledger} {sp : Space} {D : DirectoryBlocks} (hconfined : s.Confined C held L)
    (hp : s.live p) (hheld : HeldBy C s.kernel L p sp P T D) (hown : OwnMessage A s.kernel.ram D.directory msg)
    (hscratch : Scratch C s.kernel.ram D (nextBlock A 1024 s.kernel.ram.heap)) :
    Undisturbed D s.kernel.ram.mem (nextBlock A 1024 s.kernel.ram.heap) msg 1024 := by
  have hpopulated := hconfined.accounted.populated
  intro k hk hle
  obtain ⟨hwritable, hpage⟩ := hown k hk hle
  obtain ⟨b, use, howns, hdirect, h1, h2⟩ := hconfined.own hp hheld.directoryOf (u32_lt _) hwritable
  refine ⟨fun heq => absurd heq hpage, fun _ o ho heq => ?_, fun _ j hj heq => ?_⟩
  · refine absurd ?_ (hscratch.unused (nextBlock A 1024 s.kernel.ram.heap + o) (by omega)
      (by simp only [pagingPageSize]; omega))
    rw [← heq]
    refine .inr ⟨b, hpopulated.accounts.live_iff.mp howns.live, ?_⟩
    unfold Contract.block
    rw [Extent.holds_mk]
    rw [show C.pages s.kernel.ram b = L.pages b from congrFun hpopulated.accounts.pages.symm b]
    exact ⟨h1, h2⟩
  · obtain ⟨i, hi, hin⟩ := wordOf_inTables (D := D) (v := nextBlock A 1024 s.kernel.ram.heap)
      (b := physicalAddress s.kernel.ram.mem D.directory (u32 (msg + k)))
      (by have := hscratch.page.2; simp only [pagingPageSize] at this; omega) (by omega) (by omega)
    have hblock := hheld.blocks (D.tables i) (DirectoryBlocks.mem_blocks.mpr (.inr (.inr ⟨i, hi, rfl⟩)))
    exact absurd hin (hpopulated.own_apart ⟨b, use, howns, hdirect, h1, h2⟩ ⟨hblock.1, hblock.2⟩)

/-- **What a program prints appears.** In any state that programs at work reach, and for a string of the program's own
that fits on the screen: the call returns, the reader of the screen sees the string typed at the cursor, white on
black, and the heap is as it was. -/
theorem print_appears (screen : Nat → UInt16) (hrun : Run (WorkStep A) (fun _ op => op.Inside) (Booted C held) s)
    (hp : s.live p) (hP : s.kernel.process p = some P) (hT : s.kernel.taskList.tasks P.task = some T)
    (hdirectory : s.kernel.directoryOf p = some directory) (hmsg : msg < 2 ^ 32) (hbuf : buf + 1024 ≤ heapBaseAddress)
    (hblock : nextBlock A 1024 s.kernel.ram.heap ≠ 0) (hown : OwnMessage A s.kernel.ram directory msg) (hplaced : t.Placed)
    (hfits : Fits t.linear (messageAt s.kernel.ram.mem directory msg)) :
    ∃ t' r', isrSysPrintTo A T.pageDirectory buf msg t s.kernel.ram = .ok (t', r') ∧
      t'.sheet screen = (t.sheet screen).type textModeColorsWhite textModeColorsBlack
        (messageAt s.kernel.ram.mem directory msg) ∧ C.live r'.heap = C.live s.kernel.ram.heap := by
  obtain ⟨⟨L, hconfined⟩, hopens⟩ := open_of_run hrun
  have hpopulated := hconfined.accounted.populated
  obtain ⟨sp, hsp⟩ := hconfined.accounted.live p hp
  obtain ⟨P', T', D, hheld⟩ := hpopulated.accounts.held p sp hsp
  obtain rfl : P' = P := Option.some_inj.mp (hheld.process.symm.trans hP)
  obtain rfl : T' = T := Option.some_inj.mp (hheld.task.symm.trans hT)
  obtain rfl : D.directory = directory := Option.some_inj.mp (hheld.directoryOf.symm.trans hdirectory)
  have hlive : DirectoryLive C s.kernel.ram D T'.pageDirectory :=
    ⟨hheld.chunkOf, ⟨sp.entry, hheld.tables⟩, fun b hb => hpopulated.accounts.live_iff.mp (hheld.blocks b hb).1,
      hheld.nodup⟩
  have hundisturbed := hown.undisturbed hconfined hp hheld (scratch_nextBlock hpopulated.accounts.valid hblock)
  have hlow : buf + 1024 ≤ 2 ^ 32 := Nat.le_trans hbuf (by decide)
  obtain ⟨t', r', hreturn, ht', hsame, _⟩ := (isrSysPrintTo_spec (t := t) hpopulated.accounts.valid hlive.inUse
    hheld.tables hmsg (fun b h1 h2 => .inl (by omega)) hlow hblock hundisturbed fun i hi hle => by
      have hpage := (hown i hi hle).1.2
      rw [(hheld.tables.pageEntry (u32_lt _)).2] at hpage
      omega).returns
  refine ⟨t', r', hreturn, ?_, hsame⟩
  rw [ht']
  exact (terminalRun_sheet screen _ (t := {t with
    terminalFgColor := textModeColorsWhite, terminalBgColor := textModeColorsBlack}) ⟨hplaced.column, hplaced.row⟩ hfits).2

/-- A program has asked for 100 bytes and has stored the letter A there. -/
structure LetterStored (s : Lives Ladder) (P : Process) (directory : Nat) : Prop where
  run : Run (WorkStep ladder) (fun _ op => op.Inside) (Booted ladderContract fun _ => False) s
  live : s.live 0x1000000
  process : s.kernel.process 0x1000000 = some P
  directoryOf : s.kernel.directoryOf 0x1000000 = some directory
  writable : ∀ i, i < 100 → UserWritable s.kernel.ram.mem directory (0x2060000 + i)
  message : messageAt s.kernel.ram.mem directory 0x2060000 = [0x41]
  next : nextBlock ladder 1024 s.kernel.ram.heap = 0x2064000

theorem exists_letterStored : ∃ s P directory, LetterStored s P directory := by
  obtain ⟨s, t, u, P, h⟩ := exists_twoPrograms
  have hzero : ∀ i, i < 100 → t.kernel.ram.mem (0x2060000 + i) = 0 := by
    obtain ⟨L, hconfined⟩ := lives_confined_of_run h.first
    have hlive : s.live 0x1000000 := by
      cases h.request with
      | call hcall =>
        cases hcall with
        | malloc hp _ => exact hp
    obtain ⟨sp, hsp⟩ := hconfined.accounted.live _ hlive
    exact (processMalloc_zeroes hconfined.accounted.populated hsp 100).returned h.granted (by decide)
  have hslot : ∀ i, i < 100 → (P.allocations 0).ptr ≠ 0 ∧ (P.allocations 0).ptr ≤ 0x2060000 + i ∧
      0x2060000 + i < (P.allocations 0).ptr + (P.allocations 0).size := by
    intro i hi
    rw [h.allocation]
    exact ⟨by decide, Nat.le_add_right .., Nat.add_lt_add_left hi _⟩
  have husable := fun i hi => (open_of_run h.requested).allocation h.live.1 h.process (by decide) (hslot i hi).1
    (hslot i hi).2.1 (hslot i hi).2.2
  obtain ⟨hvAddr, directory, hdirectory, hwritable, hphysical⟩ := husable 0 (by decide)
  have hstep : WorkStep ladder t (.store 0x1000000 0x2060000 0x41) _ :=
    .store h.live.1 hdirectory hvAddr hwritable
  have hrun := Run.step h.requested (show WorkOp.Inside (.store 0x1000000 0x2060000 0x41) from trivial) hstep
  have hdirectory' : (t.kernel.withRam {t.kernel.ram with
      mem := userStore t.kernel.ram.mem directory 0x2060000 0x41}).directoryOf 0x1000000 = some directory := by
    obtain ⟨L, hconfined⟩ := lives_confined_of_run h.requested
    obtain ⟨sp, hsp⟩ := hconfined.accounted.live _ h.live.1
    exact (hconfined.accounted.populated.store_sameDirectory (hconfined.own h.live.1 hdirectory hvAddr hwritable) 0x41
      hsp).directoryOf.trans hdirectory
  -- the allocation is where it was, and the bytes of it are as they were, apart from the first
  have hkept : ∀ i, i < 100 → UserWritable (userStore t.kernel.ram.mem directory 0x2060000 0x41) directory (0x2060000 + i) ∧
      physicalAddress (userStore t.kernel.ram.mem directory 0x2060000 0x41) directory (0x2060000 + i) = 0x2060000 + i := by
    intro i hi
    obtain ⟨_, d, hd, hkept⟩ := (open_of_run hrun).allocation h.live.1 h.process (by decide) (hslot i hi).1
      (hslot i hi).2.1 (hslot i hi).2.2
    obtain rfl : d = directory := Option.some_inj.mp (hd.symm.trans hdirectory')
    exact hkept
  have hview : ∀ i, i < 100 → userView (userStore t.kernel.ram.mem directory 0x2060000 0x41) directory (0x2060000 + i) =
      Function.update t.kernel.ram.mem 0x2060000 0x41 (0x2060000 + i) := by
    intro i hi
    unfold userView
    rw [Nat.mod_eq_of_lt (by omega), (hkept i hi).2]
    unfold userStore
    rw [hphysical]
  have hletter : userView (userStore t.kernel.ram.mem directory 0x2060000 0x41) directory 0x2060000 = 0x41 :=
    (hview 0 (by decide)).trans (Function.update_self ..)
  have hend : userView (userStore t.kernel.ram.mem directory 0x2060000 0x41) directory (0x2060000 + 1) = 0 :=
    ((hview 1 (by decide)).trans (Function.update_of_ne (by decide) ..)).trans (hzero 1 (by decide))
  refine ⟨_, P, directory, hrun, h.live.1, h.process, hdirectory', fun i hi => (hkept i hi).1, ?_, ?_⟩
  · show stringAt (userView (userStore t.kernel.ram.mem directory 0x2060000 0x41) directory) 0x2060000 (1022 + 1) = _
    rw [stringAt_char (hletter.trans_ne (by decide)), stringAt_zero hend, hletter]
  · show nextBlock ladder 1024 t.kernel.ram.heap = _
    have hroom : 1024 ≤ ladderStep ∧ ladderAddr (1049 + 1) ≤ heapBaseAddress + heapMaxHeapSize := by decide
    unfold nextBlock
    simp only [ladder, h.next]
    rw [if_pos hroom]
    rfl

/-- The letter appears on an empty screen. -/
theorem print_appears_letter : ∃ (s : Lives Ladder) (T : Task) (directory : Nat) (t' : Terminal) (r' : Ram Ladder),
    messageAt s.kernel.ram.mem directory 0x2060000 = [0x41] ∧
    isrSysPrintTo ladder T.pageDirectory 0x200000 0x2060000 ⟨0, 0, 15, 0, []⟩ s.kernel.ram = .ok (t', r') ∧
    t'.sheet (fun _ => blankCell) = ⟨1, Function.update (fun _ => blankCell) 0 (vgaMakeChar 0x41 15 0)⟩ := by
  obtain ⟨s, P, directory, h⟩ := exists_letterStored
  have htask : ∃ T, s.kernel.taskList.tasks P.task = some T := by
    obtain ⟨L, hconfined⟩ := lives_confined_of_run h.run
    obtain ⟨sp, hsp⟩ := hconfined.accounted.live _ h.live
    obtain ⟨P', T, _, hheld⟩ := hconfined.accounted.populated.accounts.held _ sp hsp
    obtain rfl : P' = P := Option.some_inj.mp (hheld.process.symm.trans h.process)
    exact ⟨T, hheld.task⟩
  obtain ⟨T, hT⟩ := htask
  have hown : OwnMessage ladder s.kernel.ram directory 0x2060000 := by
    intro i _ hle
    rw [h.message] at hle
    have hle : i ≤ 1 := hle
    rw [u32_of_lt (by omega), h.next]
    refine ⟨h.writable i (by omega), ?_⟩
    simp only [pagingPageSize]
    omega
  obtain ⟨t', r', hreturn, hsheet, _⟩ := print_appears (t := ⟨0, 0, 15, 0, []⟩) (fun _ => blankCell) h.run h.live
    h.process hT h.directoryOf (show 0x2060000 < 2 ^ 32 by decide) (show 0x200000 + 1024 ≤ heapBaseAddress by decide)
    (h.next.trans_ne (by decide)) hown ⟨by decide, by decide⟩ (by
      rw [h.message]
      exact ⟨by decide, trivial⟩)
  refine ⟨s, T, directory, t', r', h.message, hreturn, hsheet.trans ?_⟩
  rw [h.message]
  rfl

end Programs

end BasicOS

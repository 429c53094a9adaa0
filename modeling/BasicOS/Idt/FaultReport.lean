import BasicOS.Paging.Walk
import BasicOS.Task.Switch

/-! What the fault handlers read while they report.

`int_gp_fault` and `page_fault_h` print eight bytes from the faulting address if `paging_get`
says its page is present. `paging_get` passes the address on to `paging_get_indexes`, which turns
an unaligned one away and leaves both indexes zero; nobody looks at its result, and the word
that decides is that of page 0. And the eight bytes may go over into the next page. So nothing
but present pages is read exactly when the word looked at is not present, or the pages of the
first and the last byte are (`faultReport_safe_iff`); an aligned address is always safe. -/
namespace BasicOS
open Lib

/-! ### The handlers -/

/-- What a handler does, in order. -/
inductive ReportStep where
  | terminalClear
  | print (text : String)
  | printint (num : Int)
  /-- `print_hex_byte` of the byte at the address. -/
  | printHexByte (addr : Nat)
  | taskPage
  | kernelPage
  | terminate
deriving DecidableEq, Repr

/-- The bytes of the instruction, if the word `paging_get` finds is present. The handler has
switched to the task's directory before, and reads the words through it. -/
def reportInstruction (mem : Memory) (dEntry eip : Nat) : List ReportStep :=
  let pageEntry := pagingGet (userView mem dEntry) dEntry eip
  if pageEntry &&& 0x1 ≠ 0 then
    .print "\n INS:" :: (List.range 8).map fun i => .printHexByte (u32 (eip + i))
  else []

def intGpFault (mem : Memory) (dEntry : Nat) (frame : InterruptFrame) : List ReportStep :=
  [.terminalClear, .print "General Protection Fault (#GP).", .print "\nRaised at address: ", .printint (s32 frame.eip),
    .print "\nError Code: ", .printint (s32 frame.errCode), .taskPage] ++
  reportInstruction mem dEntry frame.eip ++
  [.kernelPage, .print "\nProcessor CS value: ", .printint (s32 frame.cs), .print "\nProcessor eflags: ",
    .printint (s32 frame.eflags), .print "\n", .terminate]

def pageFaultH (mem : Memory) (dEntry : Nat) (frame : InterruptFrame) (cr2 : Nat) (pid : Int) : List ReportStep :=
  [.terminalClear, .print "Page Fault (#PF).", .print "\nFaulting address (CR2): ", .printint (s32 cr2),
    .print "\nRaised at address: ", .printint (s32 frame.eip), .print "\nError Code: ", .printint (s32 frame.errCode),
    .print "\n  Is Present: ",
    .print (if frame.errCode &&& 0x1 ≠ 0 then "Y (protection violation)" else "N (not present)"),
    .print "\n  Write Attempted: ", .print (if frame.errCode &&& 0x2 ≠ 0 then "Y" else "N (read)"),
    .print "\n  By Privilege: ", .print (if frame.errCode &&& 0x4 ≠ 0 then "User" else "Kernel"), .taskPage] ++
  reportInstruction mem dEntry frame.eip ++
  [.kernelPage, .print "\nProcessor CS value: ", .printint (s32 frame.cs), .print "\nProcessor eflags: ",
    .printint (s32 frame.eflags), .print "\nSegmentation fault [PID: ", .printint pid, .print "]\n", .terminate]

/-- Every byte printed is in a page that the task's tables mark present. -/
def ReadsPresent (mem : Memory) (dEntry : Nat) (steps : List ReportStep) : Prop :=
  ∀ addr, .printHexByte addr ∈ steps → Present mem dEntry addr

/-! ### The word looked at -/

/-- The address whose word `paging_get` returns. -/
def lookedUp (vAddr : Nat) : Nat := if vAddr % pagingPageSize = 0 then vAddr else 0

theorem pagingGet_aligned (m : Memory) (directory : Nat) {v : Nat} (hv : v % pagingPageSize = 0) :
    pagingGet m directory v =
      if directoryEntry m directory v &&& 0x1 = 0 then 0 else pageEntry m directory v := by
  have haligned : ¬ (!pagingIsAligned v) = true := by
    unfold pagingIsAligned
    simp [hv]
  have htable : v / (pagingTotalTableEntriesPerDirectory * pagingPageSize) = v / 2 ^ 22 := by
    simp only [pagingTotalTableEntriesPerDirectory, pagingPageSize, Nat.reduceMul, Nat.reducePow]
  have hword : v % (pagingTotalEntriesPerTable * pagingPageSize) / pagingPageSize = v / 2 ^ 12 % 2 ^ 10 := by
    simp only [pagingTotalEntriesPerTable, pagingPageSize]
    omega
  unfold pagingGet pagingGetIndexes pageEntry directoryEntry
  rw [if_neg haligned, htable, hword]

/-- An unaligned address leaves the indexes those of page 0. -/
theorem pagingGet_unaligned (m : Memory) (directory : Nat) {v : Nat} (hv : v % pagingPageSize ≠ 0) :
    pagingGet m directory v = pagingGet m directory 0 := by
  have hunaligned : (!pagingIsAligned v) = true := by
    unfold pagingIsAligned
    simp [hv]
  unfold pagingGet pagingGetIndexes
  rw [if_pos hunaligned]
  rfl

theorem pagingGet_present_iff (m : Memory) (directory v : Nat) :
    pagingGet m directory v &&& 0x1 ≠ 0 ↔ Present m directory (lookedUp v) := by
  have hlooked : pagingGet m directory v = pagingGet m directory (lookedUp v) := by
    unfold lookedUp
    split
    · rfl
    · rename_i hv
      exact pagingGet_unaligned m directory hv
  have haligned : lookedUp v % pagingPageSize = 0 := by
    unfold lookedUp
    split
    · assumption
    · rfl
  rw [hlooked, pagingGet_aligned m directory haligned]
  unfold Present
  generalize directoryEntry m directory (lookedUp v) = entry
  generalize pageEntry m directory (lookedUp v) = word
  split
  · rename_i hzero
    rw [Nat.and_one_is_mod] at hzero
    exact iff_of_false (fun h => h rfl) fun h => by omega
  · rename_i hentry
    rw [Nat.and_one_is_mod] at hentry ⊢
    omega

/-! ### The bytes read -/

theorem present_page {m : Memory} {directory v w : Nat} (h : v / 2 ^ 12 = w / 2 ^ 12) :
    Present m directory v ↔ Present m directory w := by
  unfold Present
  rw [directoryEntry_page h, pageEntry_page h]

/-- Eight bytes lie in the pages of the first and the last. -/
theorem eight_bytes_present {m : Memory} {directory eip : Nat} (heip : eip < 2 ^ 32) :
    (∀ i, i < 8 → Present m directory (u32 (eip + i))) ↔
      Present m directory eip ∧ Present m directory (u32 (eip + 7)) := by
  constructor
  · intro h
    refine ⟨?_, h 7 (by decide)⟩
    have hfirst := h 0 (by decide)
    rwa [Nat.add_zero, u32_of_lt heip] at hfirst
  · intro h i hi
    by_cases hpage : (eip + i) / 2 ^ 12 = eip / 2 ^ 12
    · have hsame : u32 (eip + i) / 2 ^ 12 = eip / 2 ^ 12 := by
        unfold u32
        omega
      exact (present_page hsame).mpr h.1
    · have hsame : u32 (eip + i) / 2 ^ 12 = u32 (eip + 7) / 2 ^ 12 := by
        unfold u32
        omega
      exact (present_page hsame).mpr h.2

theorem reportInstruction_reads (mem : Memory) (dEntry : Nat) {eip : Nat} (heip : eip < 2 ^ 32) :
    ReadsPresent mem dEntry (reportInstruction mem dEntry eip) ↔
      (Present (userView mem dEntry) dEntry (lookedUp eip) →
        Present mem dEntry eip ∧ Present mem dEntry (u32 (eip + 7))) := by
  rw [← pagingGet_present_iff, ← eight_bytes_present heip]
  unfold ReadsPresent reportInstruction
  by_cases hguard : pagingGet (userView mem dEntry) dEntry eip &&& 0x1 ≠ 0
  · simp only [if_pos hguard]
    constructor
    · intro h _ i hi
      exact h _ (List.mem_cons_of_mem _ (List.mem_map.mpr ⟨i, List.mem_range.mpr hi, rfl⟩))
    · intro h addr hmem
      rcases List.mem_cons.mp hmem with heq | hmem
      · cases heq
      · obtain ⟨i, hi, heq⟩ := List.mem_map.mp hmem
        cases heq
        exact h hguard i (List.mem_range.mp hi)
  · simp only [if_neg hguard]
    exact iff_of_true (fun addr hmem => absurd hmem List.not_mem_nil) fun h => absurd h hguard

/-- What surrounds the instruction reads nothing from the task. -/
theorem readsPresent_append {mem : Memory} {dEntry : Nat} {before steps after : List ReportStep}
    (hbefore : ∀ addr, .printHexByte addr ∉ before) (hafter : ∀ addr, .printHexByte addr ∉ after) :
    ReadsPresent mem dEntry (before ++ steps ++ after) ↔ ReadsPresent mem dEntry steps := by
  unfold ReadsPresent
  refine forall_congr' fun addr => ?_
  rw [List.mem_append, List.mem_append, or_iff_left (hafter addr), or_iff_right (hbefore addr)]

/-- **Reporting a fault reads only present pages exactly when** the word `paging_get` looks at is
not present as the handler sees it, or the pages of the first and the last of the eight bytes
are present in the task's tables. -/
theorem faultReport_safe_iff (mem : Memory) (dEntry : Nat) (frame : InterruptFrame) (heip : frame.eip < 2 ^ 32)
    (cr2 : Nat) (pid : Int) :
    (ReadsPresent mem dEntry (intGpFault mem dEntry frame) ↔
      (Present (userView mem dEntry) dEntry (lookedUp frame.eip) →
        Present mem dEntry frame.eip ∧ Present mem dEntry (u32 (frame.eip + 7)))) ∧
    (ReadsPresent mem dEntry (pageFaultH mem dEntry frame cr2 pid) ↔
      (Present (userView mem dEntry) dEntry (lookedUp frame.eip) →
        Present mem dEntry frame.eip ∧ Present mem dEntry (u32 (frame.eip + 7)))) := by
  rw [← reportInstruction_reads mem dEntry heip]
  exact ⟨readsPresent_append (by simp) (by simp), readsPresent_append (by simp) (by simp)⟩

/-- The handler finds the words of the address as the processor does. -/
def WordsSeen (mem : Memory) (dEntry v : Nat) : Prop :=
  directoryEntry (userView mem dEntry) dEntry v = directoryEntry mem dEntry v ∧
    pageEntry (userView mem dEntry) dEntry v = pageEntry mem dEntry v

theorem WordsSeen.present_iff {mem : Memory} {dEntry v : Nat} (h : WordsSeen mem dEntry v) :
    Present (userView mem dEntry) dEntry v ↔ Present mem dEntry v := by
  unfold Present
  rw [h.1, h.2]

/-- Where the tables are seen as they are, an aligned address is safe, and any other just when
page 0 is not present or both pages are. -/
theorem reportInstruction_seen (mem : Memory) (dEntry : Nat) {eip : Nat} (heip : eip < 2 ^ 32)
    (hseen : WordsSeen mem dEntry (lookedUp eip)) : ReadsPresent mem dEntry (reportInstruction mem dEntry eip) ↔
      eip % pagingPageSize = 0 ∨ ¬ Present mem dEntry 0 ∨
        Present mem dEntry eip ∧ Present mem dEntry (u32 (eip + 7)) := by
  rw [reportInstruction_reads mem dEntry heip, hseen.present_iff]
  unfold lookedUp
  by_cases haligned : eip % pagingPageSize = 0
  · rw [if_pos haligned]
    refine iff_of_true (fun h => ⟨h, (present_page ?_).mp h⟩) (.inl haligned)
    simp only [pagingPageSize] at haligned
    unfold u32
    omega
  · rw [if_neg haligned, or_iff_right haligned]
    exact imp_iff_not_or

/-! ### A page that is not there -/

/-- Every page maps itself, and the one at 0x500000 is not present. -/
def holeEntry (k : Nat) : Nat := k * 0x1000 + if k = 0x500 then 0 else 7

/-- Memory with such a directory at 0x200000. -/
def holeMemory : Memory := flatMemory holeEntry fun _ => 0

theorem holeMemory_tables : Tables lowDirectory holeEntry holeMemory := by
  refine flatMemory_tables (fun k hk => ?_) _
  unfold holeEntry
  split <;> omega

theorem holeMemory_present {v : Nat} (hv : v < 2 ^ 32) : Present holeMemory 0x200000 v ↔ v / 2 ^ 12 ≠ 0x500 := by
  obtain ⟨hdirectory, hpage⟩ := holeMemory_tables.pageEntry hv
  change directoryEntry holeMemory 0x200000 v % 2 = 1 at hdirectory
  change pageEntry holeMemory 0x200000 v = _ at hpage
  unfold Present
  rw [hdirectory, hpage, eq_self, true_and]
  unfold holeEntry
  simp only [pagingPageSize]
  split <;> omega

/-- Its own words are where the handler looks for them. -/
theorem holeMemory_view {v : Nat} (hv : v < 2 ^ 32) : userView holeMemory 0x200000 v = holeMemory v := by
  have hphysical := holeMemory_tables.physicalAddress hv
  change physicalAddress holeMemory 0x200000 v = _ at hphysical
  have hentry : holeEntry (v / pagingPageSize) < 2 ^ 32 := by
    unfold holeEntry
    simp only [pagingPageSize]
    split <;> omega
  unfold userView
  rw [Nat.mod_eq_of_lt hv, hphysical, and_pageMask hentry]
  congr 1
  unfold holeEntry
  simp only [pagingPageSize]
  split <;> omega

theorem holeMemory_seen : Present (userView holeMemory 0x200000) 0x200000 0 := by
  have hdirectory : directoryEntry (userView holeMemory 0x200000) 0x200000 0 = directoryEntry holeMemory 0x200000 0 :=
    read32_congr fun b h1 h2 => holeMemory_view (by omega)
  have htable : directoryEntry holeMemory 0x200000 0 &&& 0xFFFFF000 = 0x400000 := by
    obtain ⟨haddr, _⟩ := holeMemory_tables.table (show 0 < 1024 by decide)
    exact haddr
  have hword : pageEntry (userView holeMemory 0x200000) 0x200000 0 = pageEntry holeMemory 0x200000 0 := by
    unfold pageEntry
    rw [hdirectory, htable]
    exact read32_congr fun b h1 h2 => holeMemory_view (by omega)
  unfold Present
  rw [hdirectory, hword]
  exact (holeMemory_present (by decide)).mpr (by decide)

/-- A frame that came from `eip`. -/
def frameAt (eip : Nat) : InterruptFrame := ⟨0, 0, 0, 0, 0, 0, 0, 0, 0, eip, 0x1B, 0x202, 0, 0x23⟩

/-- The second byte of a page that is there. -/
theorem faultReport_safe_present :
    ReadsPresent holeMemory 0x200000 (intGpFault holeMemory 0x200000 (frameAt 0x400001)) :=
  (faultReport_safe_iff holeMemory 0x200000 (frameAt 0x400001) (by decide) 0 1).1.mpr fun _ =>
    ⟨(holeMemory_present (by decide)).mpr (by decide), (holeMemory_present (by decide)).mpr (by decide)⟩

/-- **A fault at the second byte of a page that is not there makes the handler read it.** -/
theorem faultReport_reads_hole : ¬ ∀ (mem : Memory) (dEntry : Nat) (frame : InterruptFrame) (cr2 : Nat) (pid : Int),
    frame.eip < 2 ^ 32 → ReadsPresent mem dEntry (pageFaultH mem dEntry frame cr2 pid) := by
  intro h
  have hreads := h holeMemory 0x200000 (frameAt 0x500001) 0x500001 1 (by decide)
  have hinstruction : ReadsPresent holeMemory 0x200000 (reportInstruction holeMemory 0x200000 0x500001) :=
    (readsPresent_append (by simp) (by simp)).mp hreads
  obtain ⟨hpresent, _⟩ := (reportInstruction_reads holeMemory 0x200000 (by decide)).mp hinstruction holeMemory_seen
  exact (holeMemory_present (by decide)).mp hpresent (by decide)

end BasicOS

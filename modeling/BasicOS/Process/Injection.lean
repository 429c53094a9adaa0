import BasicOS.Memory.Ladder
import BasicOS.Process.Arguments

/-! What a process has after its arguments were injected.

With blocks for every request, `process_inject_arguments` needs one slot for `argv` and one
for each string, and fails just when there are fewer (`processInjectArguments_exact`). When
it succeeds the pointers and the strings lie in blocks of their own, each page of which is
mapped to itself and open to the process (`ArgumentsPlaced`). -/
namespace BasicOS
open Lib Program

variable {H : Type} {A : Allocator H} {C : Contract A} {s t : Kernel H} {L L' : Ledger} {p : Nat} {sp : Space} {P : Process}

/-! ### What is promised -/

/-- The parts of memory the arguments are in: the pointers, and a field for each string. -/
def argumentParts (argv : Nat) (ptrs : List Nat) : List Extent :=
  ⟨argv, 4 * ptrs.length⟩ :: ptrs.map fun ptr => ⟨ptr, sizeofArgument⟩

/-- The arguments in `t` are copies of those of the nodes in `mem`, at `ptrs`. -/
structure ArgumentsPlaced (mem : Memory) (t : Kernel H) (p : Nat) (P : Process) (nodes ptrs : List Nat) : Prop where
  argc : P.arguments.argc = nodes.length
  length : ptrs.length = nodes.length
  argv : ∀ i (hi : i < ptrs.length), read32 t.ram.mem (P.arguments.argv + 4 * i) = ptrs[i]
  strings : ∀ i (hi : i < ptrs.length) (hn : i < nodes.length),
    Stored t.ram.mem ptrs[i] (stringAt mem nodes[i] (sizeofArgument - 1) ++ [0])
  apart : (argumentParts P.arguments.argv ptrs).Pairwise Extent.Apart
  mapped : ∀ e ∈ argumentParts P.arguments.argv ptrs, ∀ b, e.Holds b →
    t.pageWord p (b / pagingPageSize) = some (b / pagingPageSize * pagingPageSize + rightsWritable)

/-! ### Recorded allocations -/

/-- Two recorded allocations share no byte. -/
theorem Populated.given_blocks_apart (h : Populated C s L) {ptr ptr' size size' : Nat} (hg : L.Given p ptr size)
    (hg' : L.Given p ptr' size') (hne : ptr ≠ ptr') : Extent.Apart ⟨ptr, size⟩ ⟨ptr', size'⟩ := by
  obtain ⟨i, hown, hroom⟩ := h.given hg
  obtain ⟨j, hown', hroom'⟩ := h.given hg'
  rcases h.accounts.placed.apart ptr ptr' hown.live hown'.live hne with hle | hle
  · exact Extent.apart_of_le (by simp only; omega)
  · exact (Extent.apart_of_le (by simp only; omega)).symm

/-- The pages of a recorded allocation are mapped to themselves. -/
theorem Populated.given_mapped (h : Populated C s L) {ptr size b : Nat} (hg : L.Given p ptr size) (h1 : ptr ≤ b)
    (h2 : b < ptr + size) :
    s.pageWord p (b / pagingPageSize) = some (b / pagingPageSize * pagingPageSize + rightsWritable) := by
  obtain ⟨_, hown, hroom⟩ := h.given hg
  obtain ⟨halign, _, hend⟩ := h.accounts.placed.placed ptr hown.live
  obtain ⟨sp, i, hsp, hi, hslot⟩ := hg
  obtain ⟨P, T, D, hheld⟩ := h.accounts.held p sp hsp
  have hpage : b / pagingPageSize < 2 ^ 20 := by
    simp only [heapBlockSize, heapBaseAddress, heapMaxHeapSize, pagingPageSize] at *
    omega
  have hcovers : (sp.allocation i).Covers (b / pagingPageSize) := by
    rw [hslot]
    unfold ProcessAllocation.Covers
    simp only [heapBlockSize, pagingPageSize] at *
    omega
  rw [hheld.pageWord hpage, (h.recorded p sp hsp).mapped i _ hi hcovers]

/-- A string that was read is there with its zero. -/
theorem stored_of_argumentAt {mem : Memory} {a : Nat} {text : List UInt8} (h : argumentAt mem a = text)
    (hlen : text.length < sizeofArgument) : Stored mem a (text ++ [0]) := by
  have hread := readBy_stringAt mem a sizeofArgument
  rw [show stringAt mem a sizeofArgument = text from h] at hread
  intro k hk
  simp only [List.length_append, List.length_singleton] at hk
  have hchar := hread.read k (by omega) (by omega)
  rw [List.length_take, Nat.min_eq_left (by omega)] at hchar
  rw [hchar]
  exact (getD_terminated text k).symm

/-- Injected arguments are where they are promised. -/
theorem Injected.placed {mem : Memory} {nodes : List Nat} (h : Populated C t L')
    (hinjected : Injected t L' p P (nodes.map (copiedString mem))) : ∃ ptrs, ArgumentsPlaced mem t p P nodes ptrs := by
  obtain ⟨ptrs, hwords, hcopied, hnodup⟩ := hinjected.words
  obtain ⟨hargv, hptrs⟩ := List.nodup_cons.mp hnodup
  have hlength : ptrs.length = nodes.length := by rw [hcopied.length_eq, List.length_map]
  have hgiven : ∀ ptr ∈ ptrs, L'.Given p ptr sizeofArgument := by
    intro ptr hptr
    obtain ⟨i, hi, rfl⟩ := List.mem_iff_getElem.mp hptr
    exact (hcopied.get hi (by rwa [List.length_map, ← hlength])).1
  have hargvGiven : L'.Given p P.arguments.argv (4 * ptrs.length) := by
    have hargv := hinjected.argv
    rwa [List.length_map, ← hlength] at hargv
  refine ⟨ptrs, ?_, hlength, fun i hi => hwords.get hi, fun i hi hn => ?_, ?_, ?_⟩
  · rw [hinjected.argc, List.length_map]
  · have hcopy := (hcopied.get hi (by rwa [List.length_map])).2
    simp only [List.get_eq_getElem, List.getElem_map] at hcopy
    refine stored_of_argumentAt hcopy ?_
    exact Nat.lt_succ_of_le (length_stringAt_le mem nodes[i] (sizeofArgument - 1))
  · refine List.pairwise_cons.mpr ⟨fun e he => ?_, List.pairwise_map.mpr ?_⟩
    · obtain ⟨ptr, hptr, rfl⟩ := List.mem_map.mp he
      exact h.given_blocks_apart hargvGiven (hgiven ptr hptr) fun heq => hargv (heq ▸ hptr)
    · refine hptrs.imp_of_mem fun {a b} ha hb hne => ?_
      exact h.given_blocks_apart (hgiven a ha) (hgiven b hb) hne
  · intro e he b hb
    rcases List.mem_cons.mp he with rfl | he
    · rw [Extent.holds_mk] at hb
      exact h.given_mapped hargvGiven hb.1 hb.2
    · obtain ⟨ptr, hptr, rfl⟩ := List.mem_map.mp he
      rw [Extent.holds_mk] at hb
      exact h.given_mapped (hgiven ptr hptr) hb.1 hb.2

/-- **With blocks for every request the arguments are injected just when there are slots** for
all of them and for `argv`; otherwise the process keeps the arguments it had. -/
theorem processInjectArguments_exact {root : Nat} {nodes : List Nat} (h : Populated C s L) (hp : L.space p = some sp)
    (hP : s.process p = some P) (hlist : CommandList s.ram.mem root nodes) (hne : nodes ≠ [])
    (hsteady : ∀ v ∈ nodes, ∀ k, k < sizeofCommandArgument → L.Steady p (v + k))
    (hsupply : A.Supplies (4 * nodes.length :: List.replicate nodes.length sizeofArgument) s.ram.heap) :
    ∃ res t, processInjectArguments A p root s = .ok (res, t) ∧
      (nodes.length + 1 ≤ freeSlots P.allocations → res = 0 ∧ ∃ P' ptrs, t.process p = some P' ∧
        ArgumentsPlaced s.ram.mem t p P' nodes ptrs) ∧
      (freeSlots P.allocations < nodes.length + 1 → res < 0 ∧ ∃ P', t.process p = some P' ∧
        P'.arguments = P.arguments) := by
  have hallocation : P.allocations = sp.allocation := by
    obtain ⟨P', T, D, hheld⟩ := h.accounts.held p sp hp
    obtain rfl : P = P' := Option.some_inj.mp (hP.symm.trans hheld.process)
    exact hheld.allocation
  obtain ⟨res, t, hrun, _, L', h', _, hdecided, hres⟩ :=
    (wp.mono (processInjectArguments_spec h hp hlist hsteady) (fun _ _ hinject => hinject)
      fun _ hnone => hnone hsupply).returns
  obtain ⟨hzero, hneg⟩ := hdecided hne hsupply
  rw [List.length_cons, List.length_replicate, ← hallocation] at hzero hneg
  refine ⟨res, t, hrun, fun hle => ⟨hzero hle, ?_⟩, fun hlt => ⟨hneg hlt, ?_⟩⟩
  · obtain ⟨_, P', hP', hinjected⟩ := hres.resolve_left fun hleft => by
      have := hzero hle
      omega
    obtain ⟨ptrs, hplaced⟩ := hinjected.placed h'
    exact ⟨P', ptrs, hP', hplaced⟩
  · obtain ⟨_, hslots⟩ := hres.resolve_right fun hright => by
      have := hneg hlt
      omega
    obtain ⟨a, hP'⟩ := hslots.self P hP
    exact ⟨_, hP', rfl⟩

/-! ### One process -/

theorem ladderAddr_eq (k : Nat) : ladderAddr k = 0x1000000 + k * 0x4000 := rfl

theorem ladderAddr_inj {j k : Nat} (h : ladderAddr j = ladderAddr k) : j = k := by
  rw [ladderAddr_eq, ladderAddr_eq] at h
  omega

/-- The ladder answers while it has room. -/
theorem ladder_supplies (s : Ladder) {sizes : List Nat} (hsizes : ∀ size ∈ sizes, size ≤ ladderStep)
    (hroom : s.next + sizes.length ≤ 6400) : ladder.Supplies sizes s := by
  induction sizes generalizing s with
  | nil => trivial
  | cons size sizes ih =>
    rw [List.length_cons] at hroom
    have hnext : ladderAddr (s.next + 1) ≤ heapBaseAddress + heapMaxHeapSize := by
      rw [ladderAddr_eq]
      simp only [heapBaseAddress, heapMaxHeapSize]
      omega
    have hne : ladderAddr s.next ≠ 0 := by
      rw [ladderAddr_eq]
      omega
    have hrest : (⟨s.next + 1, ladderAddr s.next :: s.live⟩ : Ladder).next + sizes.length ≤ 6400 := by
      show s.next + 1 + sizes.length ≤ 6400
      omega
    exact ⟨ladderAddr s.next, ⟨s.next + 1, ladderAddr s.next :: s.live⟩,
      if_pos ⟨hsizes size (List.mem_cons_self ..), hnext⟩, hne,
        ih _ (fun size h => hsizes size (List.mem_cons_of_mem _ h)) hrest⟩

/-- The first `n` blocks of the ladder, all live. -/
def ladderTaken (n : Nat) : Ladder := ⟨n, (List.range n).map ladderAddr⟩

theorem mem_ladderTaken {n b : Nat} : b ∈ (ladderTaken n).live ↔ ∃ k, k < n ∧ ladderAddr k = b := by
  unfold ladderTaken
  simp only [List.mem_map, List.mem_range]

theorem ladderTaken_sound : (ladderTaken 1030).Sound := by
  refine ⟨by decide, fun b hb => ?_⟩
  obtain ⟨k, hk, rfl⟩ := mem_ladderTaken.mp hb
  exact ⟨k, hk, rfl⟩

theorem ladderTaken_next (n : Nat) : (ladderTaken n).next = n := rfl

theorem ladderTaken_pages {k n : Nat} (hk : k < n) : (ladderTaken n).pages (ladderAddr k) = 4 :=
  if_pos (mem_ladderTaken.mpr ⟨k, hk, rfl⟩)

theorem isPage_ladderAddr {k : Nat} (hk : k < 1030) : IsPage (ladderAddr k) := by
  unfold IsPage
  rw [ladderAddr_eq]
  simp only [pagingPageSize]
  omega

/-- A directory in the first block, its tables behind it. -/
def ladderDirectory : DirectoryBlocks where
  directory := ladderAddr 0
  tables i := ladderAddr (i + 1)
  directory_page := isPage_ladderAddr (by decide)
  tables_page i hi := isPage_ladderAddr (by omega)
  tables_ne i _ h := absurd (ladderAddr_inj h) (Nat.succ_ne_zero i)
  tables_inj i j _ _ h := Nat.succ_injective (ladderAddr_inj h)

/-- The block of the memory map, and behind it those of the process. -/
abbrev ladderChunk : Nat := ladderAddr 1025
abbrev ladderProcess : Nat := ladderAddr 1026

def residentProcess : Process :=
  {zeroProcess with task := ladderAddr 1027, stack := ladderAddr 1028, filetype := processFormatFbin, ptr := ladderAddr 1029}

def residentTask : Task := {zeroTask with pageDirectory := ladderChunk}

/-- A process with the identity as its directory; the rest of memory is `mem`. -/
def residentKernel (mem : Memory) : Kernel Ladder where
  files := ⟨⟨ladderTaken 1030, write32 (generated ladderDirectory.directory 5 ladderDirectory.tables mem 1024)
    ladderChunk ladderDirectory.directory⟩, fun _ => none⟩
  taskList := ⟨Function.update (fun _ => none) (ladderAddr 1027) (some residentTask), 0, 0, 0⟩
  process := Function.update (fun _ => none) ladderProcess (some residentProcess)
  elfFile := fun _ => none
  processes := fun _ => 0
  currentProcess := 0

/-- What each of the first blocks is for. -/
def residentUse (k : Nat) : Use :=
  if k ≤ 1025 then .paging else if k = 1026 then .process else if k = 1027 then .task else if k = 1028 then .stack else .image

def residentSpace : Space := ⟨identityEntry 5, fun _ => ⟨0, 0⟩⟩

def residentLedger : Ledger where
  pages := (ladderTaken 1030).pages
  owner b := some ⟨ladderProcess, residentUse ((b - 0x1000000) / 0x4000)⟩
  space := Function.update (fun _ => none) ladderProcess (some residentSpace)

attribute [local irreducible] ladderTaken generated

theorem residentLedger_owns {k : Nat} (hk : k < 1030) :
    residentLedger.Owns ladderProcess (ladderAddr k) (residentUse k) := by
  have hindex : (ladderAddr k - 0x1000000) / 0x4000 = k := by
    rw [ladderAddr_eq]
    omega
  refine ⟨?_, ?_⟩
  · have hpages : residentLedger.pages (ladderAddr k) = 4 := ladderTaken_pages hk
    rw [hpages]
    exact Nat.succ_ne_zero 3
  · unfold residentLedger
    simp only [hindex]

theorem ladderDirectory_block {b : Nat} (hb : b ∈ ladderDirectory.blocks ladderChunk) : ∃ k, k ≤ 1025 ∧
    ladderAddr k = b := by
  rcases DirectoryBlocks.mem_blocks.mp hb with rfl | rfl | ⟨i, hi, rfl⟩
  · exact ⟨1025, Nat.le_refl _, rfl⟩
  · exact ⟨0, by decide, rfl⟩
  · exact ⟨i + 1, by omega, rfl⟩

theorem ladderDirectory_nodup : (ladderDirectory.blocks ladderChunk).Nodup := by
  unfold DirectoryBlocks.blocks
  refine List.nodup_cons.mpr ⟨fun hmem => ?_, List.nodup_append.mpr ⟨?_, List.nodup_singleton _, ?_⟩⟩
  · rcases List.mem_append.mp hmem with hmem | hmem
    · obtain ⟨i, hi, heq⟩ := mem_tablesBelow.mp hmem
      have := ladderAddr_inj heq
      omega
    · exact absurd (ladderAddr_inj (List.mem_singleton.mp hmem)) (by decide)
  · unfold tablesBelow
    exact List.Nodup.map (fun i j h => Nat.succ_injective (ladderAddr_inj h)) List.nodup_range
  · intro b hb c hc heq
    obtain ⟨i, hi, rfl⟩ := mem_tablesBelow.mp hb
    rw [List.mem_singleton.mp hc] at heq
    exact absurd (ladderAddr_inj heq) (Nat.succ_ne_zero i)

/-- Different blocks of the ladder. -/
theorem ladderAddr_apart {j k b : Nat} (hjk : j ≠ k) (hb : Extent.Holds ⟨ladderAddr j, pagingPageSize⟩ b) :
    b < ladderAddr k ∨ ladderAddr k + 4 ≤ b := by
  rw [Extent.holds_mk, ladderAddr_eq] at hb
  rw [ladderAddr_eq]
  simp only [pagingPageSize] at hb
  omega

theorem residentKernel_held (mem : Memory) : HeldBy ladderContract (residentKernel mem) residentLedger ladderProcess
    residentSpace residentProcess residentTask ladderDirectory := by
  have hsame : ∀ k b, k < 1025 → Extent.Holds ⟨ladderAddr k, pagingPageSize⟩ b → (residentKernel mem).ram.mem b =
      generated ladderDirectory.directory 5 ladderDirectory.tables mem 1024 b :=
    fun k b hk hb => write32_apart _ _ (ladderAddr_apart (Nat.ne_of_lt hk) hb)
  refine ⟨rfl, rfl, rfl, ⟨read32_write32 _ _ (by decide), ?_⟩, ?_, fun b hb => ?_, ladderDirectory_nodup⟩
  · rintro b h1 h2 ⟨i, hi, hb⟩
    rcases ladderAddr_apart (k := 1025) (show i + 1 ≠ 1025 by omega) hb with hlt | hle
    · exact absurd h1 (Nat.not_le_of_lt hlt)
    · exact absurd h2 (Nat.not_lt_of_le hle)
  · refine (tables_generated mem (by decide) (by decide)).congr (fun b hb => hsame 0 b (by decide) hb) ?_
    rintro b ⟨i, hi, hb⟩
    exact hsame (i + 1) b (by omega) hb
  · obtain ⟨k, hk, rfl⟩ := ladderDirectory_block hb
    have hown := residentLedger_owns (k := k) (by omega)
    exact ⟨hown.live, hown.owner.trans (by rw [residentUse, if_pos hk])⟩

theorem residentKernel_populated (mem : Memory) : Populated ladderContract (residentKernel mem) residentLedger := by
  have hspace : ∀ p sp, residentLedger.space p = some sp → p = ladderProcess ∧ sp = residentSpace := by
    intro p sp hsp
    unfold residentLedger at hsp
    simp only at hsp
    by_cases hp : p = ladderProcess
    · rw [hp, Function.update_self] at hsp
      exact ⟨hp, (Option.some_inj.mp hsp).symm⟩
    · rw [Function.update_of_ne hp] at hsp
      cases hsp
  have howns : ∀ k use, k < 1030 → residentUse k = use → residentLedger.Owns ladderProcess (ladderAddr k) use :=
    fun k use hk huse => huse ▸ residentLedger_owns hk
  refine ⟨⟨ladderTaken_sound, rfl, fun p sp hsp => ?_⟩, fun p sp hsp => ?_, fun p sp hsp => ?_⟩
  · obtain ⟨rfl, rfl⟩ := hspace p sp hsp
    exact ⟨_, _, _, residentKernel_held mem⟩
  · obtain ⟨rfl, rfl⟩ := hspace p sp hsp
    exact ⟨fun i hi => absurd rfl hi.used, fun i k hi => absurd rfl hi.used, fun i _ _ => rfl⟩
  · obtain ⟨rfl, rfl⟩ := hspace p sp hsp
    exact ⟨residentProcess, rfl, howns 1026 _ (by decide) rfl, howns 1027 _ (by decide) rfl,
      howns 1028 _ (by decide) rfl, .flat rfl (howns 1029 _ (by decide) rfl)⟩

/-- One argument, the letter `A`, at 0x500000. -/
def letterMemory : Memory := fun b => if b = 0x500000 then 65 else 0

theorem residentKernel_low (mem : Memory) {b : Nat} (hb : b < heapBaseAddress) : (residentKernel mem).ram.mem b = mem b := by
  have hout : ∀ k, ¬ Extent.Holds ⟨ladderAddr k, pagingPageSize⟩ b := by
    intro k hk
    rw [Extent.holds_mk, ladderAddr_eq] at hk
    simp only [heapBaseAddress] at hb
    omega
  refine (write32_apart _ _ (.inl ?_)).trans (generated_same 5 mem (Nat.le_refl 1024) (hout 0) fun i _ => hout (i + 1))
  exact Nat.lt_of_lt_of_le hb (by decide)

theorem letter_list : CommandList (residentKernel letterMemory).ram.mem 0x500000 [0x500000] := by
  refine .cons (by decide) ?_
  have hnext : commandNext (residentKernel letterMemory).ram.mem 0x500000 = commandNext letterMemory 0x500000 :=
    commandNext_congr (by decide) fun k hk => residentKernel_low _ (by
      simp only [heapBaseAddress, sizeofCommandArgument] at *
      omega)
  rw [hnext, show commandNext letterMemory 0x500000 = 0 by decide]
  exact .nil

theorem letter_supplies : ladder.Supplies [4, sizeofArgument] (residentKernel letterMemory).ram.heap := by
  refine ladder_supplies (ladderTaken 1030) (by decide) ?_
  rw [ladderTaken_next]
  decide

theorem residentLedger_space : residentLedger.space ladderProcess = some residentSpace := by
  unfold residentLedger
  simp only [Function.update_self]

/-- A process with every slot empty gets one argument. -/
theorem processInjectArguments_letter : ∃ res t, processInjectArguments ladder ladderProcess 0x500000
      (residentKernel letterMemory) = .ok (res, t) ∧
    (2 ≤ freeSlots residentProcess.allocations → res = 0 ∧ ∃ P' ptrs, t.process ladderProcess = some P' ∧
      ArgumentsPlaced (residentKernel letterMemory).ram.mem t ladderProcess P' [0x500000] ptrs) ∧
    (freeSlots residentProcess.allocations < 2 → res < 0 ∧ ∃ P', t.process ladderProcess = some P' ∧
      P'.arguments = residentProcess.arguments) := by
  refine processInjectArguments_exact (residentKernel_populated letterMemory) residentLedger_space rfl letter_list
    (List.cons_ne_nil _ _) (fun v hv k hk => .inl ?_) letter_supplies
  rw [List.mem_singleton.mp hv]
  simp only [heapBaseAddress, sizeofCommandArgument] at *
  omega

end BasicOS

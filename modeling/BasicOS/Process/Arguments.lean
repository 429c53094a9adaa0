import BasicOS.CString
import BasicOS.Process.Residents

/-! The arguments of a new process, as `process.c` counts and copies them.

The caller's list is in memory, one `struct command_argument` for each argument. It is
walked twice: to count the nodes, and to copy each string into an allocation of the new
process. The memory of the list is nothing the allocations touch, so both walks see the
same nodes (`processInjectArguments_spec`). -/
namespace BasicOS
open Lib Program

abbrev sizeofArgument : Nat := 512
/-- The size of `struct command_argument`; `next` is its last word. -/
abbrev sizeofCommandArgument : Nat := 516

variable {H : Type}

/-! ### Walking the list -/

def commandNext (mem : Memory) (current : Nat) : Nat := read32 mem (u32 (current + sizeofArgument))

/-- The loop of `process_count_command_arguments` with the turns left. -/
def countFrom (mem : Memory) : Nat → Nat → Nat → Option Nat
  | 0, _, _ => none
  | n + 1, current, i => if current = 0 then some i else countFrom mem n (commandNext mem current) (i + 1)

/-- A list that does not end among `2 ^ 32` addresses never ends. -/
def processCountCommandArguments (rootArgument : Nat) : Program Stop (Kernel H) Int := fun s =>
  match countFrom s.ram.mem (2 ^ 32) rootArgument 0 with
  | some i => .ok (s32 i, s)
  | none => .error .diverges

/-- The body of the loop of `process_inject_arguments`, up to the step to the next node. -/
def copyArgument (A : Allocator H) (process argv current i : Nat) : Program Stop (Kernel H) Int := do
  let argumentStr ← processMalloc A process sizeofArgument
  if argumentStr = 0 then return -enomem
  onRam (modify fun s => {s with mem := strncpy s.mem argumentStr current sizeofArgument})
  onRam (store32 (u32 (argv + 4 * i)) argumentStr)
  return 0

/-- The loop with the turns left. -/
def injectFrom (A : Allocator H) (process argv : Nat) : Nat → Nat → Nat → Program Stop (Kernel H) Int
  | 0, _, _ => stop .diverges
  | n + 1, current, i => do
    if current = 0 then return 0
    let res ← copyArgument A process argv current i
    if res < 0 then return res
    let next := commandNext (← get).ram.mem current
    injectFrom A process argv n next (i + 1)

def processInjectArguments (A : Allocator H) (process rootArgument : Nat) : Program Stop (Kernel H) Int := do
  let argc ← processCountCommandArguments rootArgument
  if argc = 0 then return -eio
  let argv ← processMalloc A process (u32 (4 * u32OfInt argc))
  if argv = 0 then return -enomem
  let res ← injectFrom A process argv (2 ^ 32) rootArgument 0
  if res < 0 then return res
  let p ← loadProcess process
  storeProcess process {p with arguments := ⟨argc, argv⟩}
  return res

/-- The nodes of the list at an address. -/
inductive CommandList (mem : Memory) : Nat → List Nat → Prop where
  | nil : CommandList mem 0 []
  | cons {a rest} (h : a ≠ 0) (hrest : CommandList mem (commandNext mem a) rest) : CommandList mem a (a :: rest)

/-- The argument of a node, up to the last byte of its 512. -/
def argumentAt (mem : Memory) (a : Nat) : List UInt8 := stringAt mem a sizeofArgument

/-- The process has these arguments: the count, and at `argv` the strings. -/
def HasArguments (s : Kernel H) (process : Nat) (arguments : List (List UInt8)) : Prop :=
  ∃ P, s.process process = some P ∧ P.arguments.argc = arguments.length ∧
    ∀ i (hi : i < arguments.length), argumentAt s.ram.mem (read32 s.ram.mem (P.arguments.argv + 4 * i)) = arguments[i]

/-! ### Lists -/

section Lists

variable {mem m : Memory} {a b : Nat} {nodes rest : List Nat}

theorem CommandList.unique (h : CommandList mem a nodes) (h' : CommandList mem a rest) : nodes = rest := by
  induction h generalizing rest with
  | nil =>
    cases h' with
    | nil => rfl
    | cons hne _ => exact absurd rfl hne
  | cons hne _ ih =>
    cases h' with
    | nil => exact absurd rfl hne
    | cons _ hrest => rw [ih hrest]

/-- A node below 4 GiB has its link behind its string. -/
theorem commandNext_eq (mem : Memory) {v : Nat} (hfit : v + sizeofCommandArgument ≤ 2 ^ 32) :
    commandNext mem v = read32 mem (v + sizeofArgument) := by
  unfold commandNext
  rw [u32_of_lt (by simp only [sizeofArgument, sizeofCommandArgument] at *; omega)]

/-- The word at the end of a node is as it was. -/
theorem commandNext_congr {v : Nat} (hfit : v + sizeofCommandArgument ≤ 2 ^ 32)
    (h : ∀ k, k < sizeofCommandArgument → m (v + k) = mem (v + k)) : commandNext m v = commandNext mem v := by
  rw [commandNext_eq m hfit, commandNext_eq mem hfit]
  refine read32_congr fun b h1 h2 => ?_
  have hb := h (b - v) (by simp only [sizeofArgument, sizeofCommandArgument] at *; omega)
  rwa [show v + (b - v) = b by omega] at hb

/-- Two memories that agree on the nodes have the same list. -/
theorem CommandList.congr (h : CommandList mem a nodes) (hfit : ∀ v ∈ nodes, v + sizeofCommandArgument ≤ 2 ^ 32)
    (hsame : ∀ v ∈ nodes, ∀ k, k < sizeofCommandArgument → m (v + k) = mem (v + k)) : CommandList m a nodes := by
  induction h with
  | nil => exact .nil
  | @cons a rest hne _ ih =>
    refine .cons hne ?_
    rw [commandNext_congr (hfit a (List.mem_cons_self ..)) (hsame a (List.mem_cons_self ..))]
    exact ih (fun v hv => hfit v (List.mem_cons_of_mem a hv)) fun v hv => hsame v (List.mem_cons_of_mem a hv)

theorem countFrom_eq (h : CommandList mem a nodes) (n i : Nat) :
    countFrom mem n a i = if nodes.length < n then some (i + nodes.length) else none := by
  induction h generalizing n i with
  | nil =>
    cases n with
    | zero => rfl
    | succ n =>
      unfold countFrom
      rw [if_pos rfl, if_pos (show ([] : List Nat).length < n + 1 from Nat.succ_pos n)]
      rfl
  | @cons a rest hne _ ih =>
    cases n with
    | zero => rfl
    | succ n =>
      unfold countFrom
      rw [if_neg hne, ih]
      simp only [List.length_cons, Nat.add_lt_add_iff_right]
      rw [Nat.add_right_comm, Nat.add_assoc]

/-- A count that ends is that of a list. -/
theorem countFrom_list {n i j : Nat} (h : countFrom mem n a i = some j) : ∃ nodes, CommandList mem a nodes := by
  induction n generalizing a i with
  | zero => cases h
  | succ n ih =>
    unfold countFrom at h
    split at h
    · rename_i hnull
      exact ⟨[], hnull ▸ .nil⟩
    · rename_i hne
      obtain ⟨rest, hrest⟩ := ih h
      exact ⟨a :: rest, .cons hne hrest⟩

/-- What follows a node is a list of its own. -/
theorem CommandList.suffix (h : CommandList mem a nodes) (hb : b ∈ nodes) :
    ∃ rest, CommandList mem b rest ∧ rest.length ≤ nodes.length := by
  induction h with
  | nil => cases hb
  | @cons a rest hne hrest ih =>
    rcases List.mem_cons.mp hb with rfl | hb
    · exact ⟨_, .cons hne hrest, Nat.le_refl _⟩
    · obtain ⟨rest', h', hle⟩ := ih hb
      exact ⟨rest', h', Nat.le_succ_of_le hle⟩

/-- A list that ends has no node twice. -/
theorem CommandList.nodup (h : CommandList mem a nodes) : nodes.Nodup := by
  induction h with
  | nil => exact List.nodup_nil
  | @cons a rest hne hrest ih =>
    refine List.nodup_cons.mpr ⟨fun hmem => ?_, ih⟩
    obtain ⟨rest', h', hle⟩ := hrest.suffix hmem
    rw [h'.unique (.cons hne hrest), List.length_cons] at hle
    omega

theorem CommandList.length_le (h : CommandList mem a nodes) {N : Nat} (hlt : ∀ v ∈ nodes, v < N) :
    nodes.length ≤ N := by
  have hsub : nodes ⊆ List.range N := fun v hv => List.mem_range.mpr (hlt v hv)
  have hle := (h.nodup.subperm hsub).length_le
  rwa [List.length_range] at hle

end Lists

/-! ### A process that asks for memory -/

section Growth

variable {A : Allocator H} {C : Contract A} {s t : Kernel H} {L L' L'' : Ledger} {p q ptr ptr' size size' a b : Nat}
  {sp : Space}

/-- The allocator answers the next requests, of these sizes, with blocks. -/
def Allocator.Supplies (A : Allocator H) : List Nat → H → Prop
  | [], _ => True
  | size :: sizes, heap => ∃ ptr heap', A.kmalloc size heap = some (ptr, heap') ∧ ptr ≠ 0 ∧ A.Supplies sizes heap'

theorem Allocator.Supplies.next {sizes : List Nat} {heap heap' : H} (h : A.Supplies (size :: sizes) heap)
    (hanswer : A.kmalloc size heap = some (ptr, heap')) : ptr ≠ 0 ∧ A.Supplies sizes heap' := by
  obtain ⟨ptr', heap'', hk, hne, hrest⟩ := h
  obtain ⟨rfl, rfl⟩ := Prod.mk.inj (Option.some_inj.mp (hanswer.symm.trans hk))
  exact ⟨hne, hrest⟩

theorem Allocator.Supplies.answers {sizes : List Nat} {heap : H} (h : A.Supplies (size :: sizes) heap) :
    A.kmalloc size heap ≠ none := by
  obtain ⟨ptr, heap', hk, _⟩ := h
  rw [hk]
  exact Option.some_ne_none _

/-- How many slots are empty. -/
def freeSlots (allocations : Nat → ProcessAllocation) : Nat :=
  (List.range basicOSMaxAllocationsAllowedPerProcess).countP fun i => (allocations i).ptr = 0

theorem Space.Full.freeSlots (h : sp.Full) : BasicOS.freeSlots sp.allocation = 0 := by
  unfold BasicOS.freeSlots
  rw [List.countP_eq_zero]
  intro i hi
  simpa using h i (List.mem_range.mp hi)

/-- Filling an empty slot. -/
theorem countP_update {allocations : Nat → ProcessAllocation} {a : ProcessAllocation} {i n : Nat} (hi : i < n)
    (hempty : (allocations i).ptr = 0) (ha : a.ptr ≠ 0) :
    (List.range n).countP (fun j => (Function.update allocations i a j).ptr = 0) + 1 =
      (List.range n).countP fun j => (allocations j).ptr = 0 := by
  induction n with
  | zero => exact absurd hi (Nat.not_lt_zero i)
  | succ n ih =>
    rw [List.range_succ, List.countP_append, List.countP_append]
    simp only [List.countP_singleton]
    by_cases hin : i = n
    · -- below the slot nothing changes
      subst hin
      have hbelow : (List.range i).countP (fun j => (Function.update allocations i a j).ptr = 0) =
          (List.range i).countP fun j => (allocations j).ptr = 0 := by
        refine List.countP_congr fun j hj => ?_
        have hji : j ≠ i := Nat.ne_of_lt (List.mem_range.mp hj)
        rw [Function.update_of_ne hji]
      rw [hbelow, Function.update_self]
      simp [hempty, ha]
    · rw [Function.update_of_ne (Ne.symm hin), ← ih (by omega)]
      omega

theorem Space.freeSlots_malloc {i : Nat} (hi : i < basicOSMaxAllocationsAllowedPerProcess)
    (hempty : (sp.allocation i).ptr = 0) (hne : ptr ≠ 0) :
    BasicOS.freeSlots (sp.malloc i ptr size).allocation + 1 = BasicOS.freeSlots sp.allocation :=
  countP_update hi hempty hne

/-- A recorded allocation of `p`. -/
def Ledger.Given (L : Ledger) (p ptr size : Nat) : Prop :=
  ∃ sp i, L.space p = some sp ∧ sp.Holds i ∧ sp.allocation i = ⟨ptr, size⟩

/-- Live blocks are still there, and only `p` has changed. -/
structure Ledger.Grows (L : Ledger) (p : Nat) (L' : Ledger) : Prop where
  kept : ∀ b, L.pages b ≠ 0 → L'.pages b = L.pages b ∧ L'.owner b = L.owner b
  space : ∃ sp, L'.space = Function.update L.space p (some sp)
  given : ∀ ptr size, L.Given p ptr size → L'.Given p ptr size

theorem Ledger.Grows.refl (hp : L.space p = some sp) : L.Grows p L :=
  ⟨fun _ _ => ⟨rfl, rfl⟩, ⟨sp, by rw [← hp, Function.update_eq_self]⟩, fun _ _ h => h⟩

theorem Ledger.Grows.trans (h : L.Grows p L') (h' : L'.Grows p L'') : L.Grows p L'' := by
  refine ⟨fun b hb => ?_, ?_, fun ptr size hg => h'.given ptr size (h.given ptr size hg)⟩
  · obtain ⟨hpages, howner⟩ := h.kept b hb
    obtain ⟨hpages', howner'⟩ := h'.kept b (by rwa [hpages])
    exact ⟨hpages'.trans hpages, howner'.trans howner⟩
  · obtain ⟨sp, hsp⟩ := h.space
    obtain ⟨sp', hsp'⟩ := h'.space
    exact ⟨sp', by rw [hsp', hsp, Function.update_idem]⟩

theorem Ledger.Grows.steady (h : L.Grows p L') (ha : L.Steady p a) : L'.Steady p a := by
  rcases ha with hlow | ⟨b, hb, howner, h1, h2⟩
  · exact .inl hlow
  · obtain ⟨hpages, howner'⟩ := h.kept b hb
    exact .inr ⟨b, by rwa [hpages], by rwa [howner'], h1, by rwa [hpages]⟩

theorem Ledger.Grows.inhabited (h : L.Grows p L') : ∃ sp, L'.space p = some sp := by
  obtain ⟨sp, hsp⟩ := h.space
  exact ⟨sp, by rw [hsp, Function.update_self]⟩

/-- An allocation in an empty slot. -/
theorem Ledger.grows_malloc {i : Nat} (hp : L.space p = some sp) (hi : i < basicOSMaxAllocationsAllowedPerProcess)
    (hempty : (sp.allocation i).ptr = 0) (hne : ptr ≠ 0) (hfree : L.pages ptr = 0) (size n : Nat) :
    L.Grows p (L.malloc p sp i ptr size n) ∧ (L.malloc p sp i ptr size n).Given p ptr size := by
  have hspace : (L.malloc p sp i ptr size n).space p = some (sp.malloc i ptr size) := Function.update_self ..
  refine ⟨⟨fun b hb => ?_, ⟨_, rfl⟩, ?_⟩, sp.malloc i ptr size, i, hspace, ⟨hi, ?_⟩, ?_⟩
  · have hbp : b ≠ ptr := fun heq => hb (heq ▸ hfree)
    exact ⟨Function.update_of_ne hbp .., Function.update_of_ne hbp ..⟩
  · rintro ptr' size' ⟨sp', j, hsp', hj, hslot⟩
    obtain rfl : sp = sp' := Option.some_inj.mp (hp.symm.trans hsp')
    have hji : j ≠ i := fun heq => hj.used (heq ▸ hempty)
    exact ⟨sp.malloc i ptr size, j, hspace, (Space.holds_update hji).mpr hj, by
      rw [← hslot]
      exact Function.update_of_ne hji ..⟩
  · simpa [Space.malloc] using hne
  · simp [Space.malloc]

theorem Populated.given (h : Populated C s L) (hg : L.Given p ptr size) :
    ∃ i, L.Owns p ptr (.allocation i) ∧ size ≤ L.pages ptr * heapBlockSize := by
  obtain ⟨sp, i, hsp, hi, hslot⟩ := hg
  obtain ⟨howner, hlive, hroom⟩ := (h.recorded p sp hsp).owned i hi
  rw [hslot] at howner hlive hroom
  exact ⟨i, ⟨hlive, howner⟩, hroom⟩

theorem Populated.given_steady (h : Populated C s L) (hg : L.Given p ptr size) (h1 : ptr ≤ a) (h2 : a < ptr + size) :
    L.Steady p a := by
  obtain ⟨i, hown, hroom⟩ := h.given hg
  refine .inr ⟨ptr, hown.live, ?_, h1, by omega⟩
  rw [hown.owner]
  simp

/-- Bytes that were steady before a block was there are not in it. -/
theorem Populated.given_apart (h : Populated C s L') (hgrows : L.Grows p L') (ha : L.Steady p a)
    (hfree : L.pages ptr = 0) (hg : L'.Given p ptr size) : ¬ (ptr ≤ a ∧ a < ptr + size) := by
  obtain ⟨i, hown, hroom⟩ := h.given hg
  rcases ha with hlow | ⟨b, hb, _, h1, h2⟩
  · have hbase := (h.accounts.placed.placed ptr hown.live).2.1
    omega
  · have hne : b ≠ ptr := fun heq => hb (heq ▸ hfree)
    obtain ⟨hpages, _⟩ := hgrows.kept b hb
    have hapart := h.accounts.placed.apart b ptr (by rwa [hpages]) hown.live hne
    rw [hpages] at hapart
    omega

/-- A range that was steady before a block was there lies before or behind it. -/
theorem Populated.given_disjoint {n : Nat} (h : Populated C s L') (hgrows : L.Grows p L')
    (ha : ∀ k, k < n → L.Steady p (a + k)) (hfree : L.pages ptr = 0) (hg : L'.Given p ptr size) (hn : 0 < n)
    (hsize : 0 < size) : ptr + size ≤ a ∨ a + n ≤ ptr := by
  have hapart : ∀ k, k < n → ¬ (ptr ≤ a + k ∧ a + k < ptr + size) := fun k hk =>
    h.given_apart hgrows (ha k hk) hfree hg
  by_contra hover
  by_cases hle : ptr ≤ a
  · exact hapart 0 hn (by omega)
  · exact hapart (ptr - a) (by omega) (by omega)

/-- A request found no slot, or was answered null. -/
def Denied (A : Allocator H) (s t : Kernel H) (sp : Space) (size : Nat) : Prop :=
  sp.Full ∨ A.kmalloc size s.ram.heap = some (0, t.ram.heap)

/-- A request was answered, and an empty slot is filled. -/
structure Answered (A : Allocator H) (s t : Kernel H) (L' : Ledger) (p : Nat) (sp : Space) (size ret : Nat) : Prop where
  answer : A.kmalloc size s.ram.heap = some (ret, t.ram.heap)
  slots : ∃ sp', L'.space p = some sp' ∧ BasicOS.freeSlots sp'.allocation + 1 = BasicOS.freeSlots sp.allocation

/-- With enough blocks, it is the slots that decide. -/
theorem Denied.full {sizes : List Nat} (h : Denied A s t sp size) (hsupply : A.Supplies (size :: sizes) s.ram.heap) :
    BasicOS.freeSlots sp.allocation = 0 := by
  rcases h with hfull | hnull
  · exact hfull.freeSlots
  · exact absurd rfl (hsupply.next hnull).1

/-- A request adds an allocation, or is denied. -/
theorem Populated.grow (h : Populated C s L) (hp : L.space p = some sp) (size : Nat) :
    wp (processMalloc A p size) (fun ret t => SlotsOnly s t p ∧ (∀ a, L.Steady p a → t.ram.mem a = s.ram.mem a) ∧
      ∃ L', Populated C t L' ∧ L.Grows p L' ∧ ((ret = 0 ∧ Denied A s t sp size) ∨
        ret ≠ 0 ∧ L.pages ret = 0 ∧ L'.Given p ret size ∧ Answered A s t L' p sp size ret))
      (fun _ => A.kmalloc size s.ram.heap = none) s := by
  refine wp.mono (h.malloc hp size) (fun ret t hmalloc => ?_) fun _ hnone => hnone
  obtain ⟨hslots, hsteady, ⟨hnull, h', hwhy⟩ | ⟨i, n, hi, hempty, hne, hfree, _, _, hanswer, h'⟩⟩ := hmalloc
  · exact ⟨hslots, hsteady, L, h', .refl hp, .inl ⟨hnull, hwhy⟩⟩
  · obtain ⟨hgrows, hgiven⟩ := Ledger.grows_malloc hp hi hempty hne hfree size n
    exact ⟨hslots, hsteady, _, h', hgrows, .inr ⟨hne, hfree, hgiven, hanswer, _, Function.update_self ..,
      Space.freeSlots_malloc hi hempty hne⟩⟩

/-- Memory may change where no directory is. -/
theorem Populated.write (h : Populated C s L) {mem : Memory}
    (hmem : ∀ q b a, L.Owns q b .paging → Extent.Holds ⟨b, pagingPageSize⟩ a → mem a = s.ram.mem a) :
    Populated C (s.withRam {s.ram with mem := mem}) L := by
  have huntouched : ∀ q sq, L.space q = some sq → Held C (s.withRam {s.ram with mem := mem}) L q sq ∧
      ∃ Q, Resident (s.withRam {s.ram with mem := mem}) L q Q := fun q sq hq =>
    h.untouched hq rfl (fun _ _ => rfl) (fun _ _ => rfl) (fun _ _ _ _ => ⟨rfl, rfl⟩) fun b a hb ha => hmem q b a hb ha
  exact ⟨⟨h.accounts.valid, h.accounts.pages, fun q sq hq => (huntouched q sq hq).1⟩, h.recorded,
    fun q sq hq => (huntouched q sq hq).2⟩

/-- An allocation may be written to. -/
theorem Populated.write_given (h : Populated C s L) (hg : L.Given p ptr size) {mem : Memory}
    (hmem : SameOutside ⟨ptr, size⟩ s.ram.mem mem) : Populated C (s.withRam {s.ram with mem := mem}) L := by
  obtain ⟨i, hown, hroom⟩ := h.given hg
  refine h.write fun q b a hb ha => hmem a fun hin => ?_
  rw [Extent.holds_mk] at hin
  exact h.accounts.placed.page_apart hb.live hown.live (hb.ne hown (.inr (by simp))) ha ⟨hin.1, by omega⟩

end Growth

/-! ### Copying the list -/

section Injection

variable {A : Allocator H} {C : Contract A} {s t : Kernel H} {L L' : Ledger} {p argv size current i : Nat} {sp : Space}
  {nodes : List Nat}

/-- The words from `a` on. -/
def WordsAt (mem : Memory) : Nat → List Nat → Prop
  | _, [] => True
  | a, w :: ws => read32 mem a = w ∧ WordsAt mem (a + 4) ws

theorem WordsAt.get {mem : Memory} {a : Nat} {ws : List Nat} (h : WordsAt mem a ws) {i : Nat} (hi : i < ws.length) :
    read32 mem (a + 4 * i) = ws[i] := by
  induction ws generalizing a i with
  | nil => cases hi
  | cons w ws ih =>
    cases i with
    | zero => exact h.1
    | succ i =>
      rw [show a + 4 * (i + 1) = a + 4 + 4 * i by omega]
      exact ih h.2 (Nat.lt_of_succ_lt_succ hi)

/-- The pointers are allocations of `p` with these strings. -/
def Copied (L : Ledger) (p : Nat) (mem : Memory) (ptrs : List Nat) (strings : List (List UInt8)) : Prop :=
  List.Forall₂ (fun ptr string => L.Given p ptr sizeofArgument ∧ argumentAt mem ptr = string) ptrs strings

/-- The node is memory that neither the requests of `p` nor writes to `argv` touch. -/
def Ledger.Reads (L : Ledger) (p argv size v : Nat) : Prop :=
  ∀ k, k < sizeofCommandArgument → L.Steady p (v + k) ∧ ¬ (argv ≤ v + k ∧ v + k < argv + size)

/-- The string of a node, cut off as `strncpy` does. -/
abbrev copiedString (mem : Memory) (v : Nat) : List UInt8 := stringAt mem v (sizeofArgument - 1)

theorem copiedString_congr {mem m : Memory} {v : Nat}
    (h : ∀ k, k < sizeofCommandArgument → m (v + k) = mem (v + k)) : copiedString m v = copiedString mem v := by
  refine stringAt_congr fun b h1 h2 => ?_
  have hb := h (b - v) (by simp only [sizeofArgument, sizeofCommandArgument] at *; omega)
  rwa [show v + (b - v) = b by omega] at hb

theorem Populated.given_lt (h : Populated C s L) (hg : L.Given p argv size) : argv + size < 2 ^ 32 := by
  obtain ⟨j, hown, hroom⟩ := h.given hg
  obtain ⟨_, _, hend⟩ := h.accounts.placed.placed argv hown.live
  simp only [heapBaseAddress, heapMaxHeapSize] at hend
  omega

/-- Memory in use lies below the end of the heap. -/
theorem Populated.steady_lt (h : Populated C s L) (ha : L.Steady p a) : a < 2 ^ 27 := by
  rcases ha with hlow | ⟨b, hb, _, _, h2⟩
  · simp only [heapBaseAddress] at hlow
    omega
  · obtain ⟨_, _, hend⟩ := h.accounts.placed.placed b hb
    simp only [heapBaseAddress, heapMaxHeapSize] at hend
    omega

/-- So does a node that is in use. -/
theorem Populated.node_fits (h : Populated C s L) {v : Nat}
    (hsteady : ∀ k, k < sizeofCommandArgument → L.Steady p (v + k)) : v + sizeofCommandArgument ≤ 2 ^ 32 := by
  have hlast := h.steady_lt (hsteady (sizeofCommandArgument - 1) (by decide))
  simp only [sizeofCommandArgument] at *
  omega

/-- The copy of a string into a block and of the block's address into a word elsewhere. -/
theorem strncpy_argument (m : Memory) {ptr : Nat} (word : Nat) (hcurrent : ptr + sizeofArgument ≤ current ∨
    current + sizeofArgument ≤ ptr) (hword : ptr + sizeofArgument ≤ word ∨ word + 4 ≤ ptr) :
    SameOutside ⟨ptr, sizeofArgument⟩ m (strncpy m ptr current sizeofArgument) ∧
      argumentAt (write32 (strncpy m ptr current sizeofArgument) word ptr) ptr = copiedString m current := by
  have hlen : (copiedString m current).length + 1 ≤ sizeofArgument :=
    Nat.succ_le_succ (length_stringAt_le m current (sizeofArgument - 1))
  have hzero : ∀ c ∈ copiedString m current, c ≠ 0 := fun c hc => stringAt_ne_zero hc
  rw [strncpy_eq (by decide) hcurrent, show stringAt m current (sizeofArgument - 1) = copiedString m current from rfl]
  generalize copiedString m current = bytes at *
  refine ⟨(sameOutside_store _ _ _).mono fun b hb => ?_, ?_⟩
  · rw [Extent.holds_mk] at hb ⊢
    simp only [List.length_append, List.length_singleton] at hb
    omega
  · refine (stringAt_congr fun b h1 h2 => ?_).trans (stringAt_store m ptr hzero (Nat.le_of_lt hlen))
    have hsame := sameOutside_write32 (store m ptr (bytes ++ [0])) word ptr
    exact hsame b (by rw [Extent.holds_mk]; omega)

/-- One turn copies the string into an allocation and its address into `argv`. -/
theorem copyArgument_spec (h : Populated C s L) (hp : L.space p = some sp) (hreads : L.Reads p argv size current)
    (hargv : L.Given p argv size) (hroom : 4 * (i + 1) ≤ size) :
    wp (copyArgument A p argv current i) (fun res t => SlotsOnly s t p ∧ ∃ L', Populated C t L' ∧ L.Grows p L' ∧
      (∀ a, L.Steady p a → ¬ (argv + 4 * i ≤ a ∧ a < argv + 4 * (i + 1)) → t.ram.mem a = s.ram.mem a) ∧
      ((res < 0 ∧ Denied A s t sp sizeofArgument) ∨ res = 0 ∧ ∃ ptr, L.pages ptr = 0 ∧
        read32 t.ram.mem (argv + 4 * i) = ptr ∧ L'.Given p ptr sizeofArgument ∧
        argumentAt t.ram.mem ptr = copiedString s.ram.mem current ∧ Answered A s t L' p sp sizeofArgument ptr))
      (fun _ => A.kmalloc sizeofArgument s.ram.heap = none) s := by
  unfold copyArgument
  refine wp.bind (h.grow hp _) fun ptr t ⟨hslots, hmem, L', h', hgrows, hptr⟩ => ?_
  split
  · rename_i hnull
    exact ⟨hslots, L', h', hgrows, fun a ha _ => hmem a ha, .inl ⟨by decide, (hptr.resolve_right fun h => h.1 hnull).2⟩⟩
  rename_i hne
  obtain ⟨_, hfree, hgiven, hanswered⟩ := hptr.resolve_left fun h => hne h.1
  -- the new block lies apart from `argv` and from the node
  have hargvApart : ptr + sizeofArgument ≤ argv ∨ argv + size ≤ ptr :=
    h'.given_disjoint hgrows (fun k hk => h.given_steady hargv (by omega) (by omega)) hfree hgiven (by omega) (by decide)
  have hcurrent : ptr + sizeofArgument ≤ current ∨ current + sizeofArgument ≤ ptr :=
    h'.given_disjoint hgrows (fun k hk => (hreads k (Nat.lt_of_lt_of_le hk (by decide))).1) hfree hgiven (by decide)
      (by decide)
  have hlt := h'.given_lt hgiven
  have hargvLt := h.given_lt hargv
  have hword : u32 (argv + 4 * i) = argv + 4 * i := u32_of_lt (by omega)
  have hstring : copiedString t.ram.mem current = copiedString s.ram.mem current :=
    copiedString_congr fun k hk => hmem _ (hreads k hk).1
  obtain ⟨hstore, hcopied⟩ := strncpy_argument t.ram.mem (argv + 4 * i) hcurrent (by omega)
  have hwrite := sameOutside_write32 (strncpy t.ram.mem ptr current sizeofArgument) (argv + 4 * i) ptr
  unfold onRam store32
  rw [wp_bind, wp_zoom, wp_modify, wp_bind, wp_zoom, wp_modify]
  simp only [hword]
  have h₃ := (h'.write_given hgiven hstore).write_given (hgrows.given _ _ hargv) (hwrite.mono fun b hb => by
    rw [Extent.holds_mk] at hb ⊢
    omega)
  have hslots' : SlotsOnly s (t.withRam {t.ram with mem := strncpy t.ram.mem ptr current sizeofArgument}) p :=
    hslots.trans (slotsOnly_withRam t _ p)
  refine ⟨hslots'.trans (slotsOnly_withRam _ _ p), L', h₃, hgrows, fun a ha hout => ?_,
    .inr ⟨rfl, ptr, hfree, ?_, hgiven, hcopied.trans hstring, hanswered.answer, hanswered.slots⟩⟩
  · have hnew := h'.given_apart hgrows ha hfree hgiven
    exact (hwrite a (by rw [Extent.holds_mk]; omega)).trans ((hstore a (by rwa [Extent.holds_mk])).trans (hmem a ha))
  · exact read32_write32 _ _ (by simp only [sizeofArgument] at hlt; omega)

theorem Ledger.Reads.grows {v : Nat} (h : L.Reads p argv size v) (hgrows : L.Grows p L') : L'.Reads p argv size v :=
  fun k hk => ⟨hgrows.steady (h k hk).1, (h k hk).2⟩

/-- Blocks that were not there before the request are other blocks than those there. -/
theorem Ledger.Grows.fresh (h : L.Grows p L') {b : Nat} (hb : L'.pages b = 0) : L.pages b = 0 := by
  by_contra hlive
  exact hlive ((h.kept b hlive).1 ▸ hb)

/-- With blocks for all requests, the call succeeds just when there are slots for all. -/
def Decided (A : Allocator H) (sizes : List Nat) (heap : H) (sp : Space) (res : Int) : Prop :=
  A.Supplies sizes heap →
    (sizes.length ≤ freeSlots sp.allocation → res = 0) ∧ (freeSlots sp.allocation < sizes.length → res < 0)

/-- A request that was denied. -/
theorem Denied.decided {sizes : List Nat} {res : Int} (h : Denied A s t sp size) (hneg : res < 0) :
    Decided A (size :: sizes) s.ram.heap sp res := by
  intro hsupply
  have hfull := h.full hsupply
  rw [hfull]
  exact ⟨fun hle => absurd hle (Nat.not_succ_le_zero _), fun _ => hneg⟩

/-- A request that was answered leaves it to those behind it. -/
theorem Answered.decided {sizes : List Nat} {res : Int} {ptr : Nat} {sp' : Space}
    (hanswer : A.kmalloc size s.ram.heap = some (ptr, t.ram.heap))
    (hslot : freeSlots sp'.allocation + 1 = freeSlots sp.allocation) (h : Decided A sizes t.ram.heap sp' res) :
    Decided A (size :: sizes) s.ram.heap sp res := by
  intro hsupply
  obtain ⟨hzero, hneg⟩ := h (hsupply.next hanswer).2
  rw [List.length_cons, ← hslot]
  exact ⟨fun hle => hzero (Nat.le_of_succ_le_succ hle), fun hlt => hneg (Nat.lt_of_succ_lt_succ hlt)⟩

/-- The words from `w` on point to copies of the strings, in blocks of `p` that were not there
before. -/
structure CopiesAt (L L' : Ledger) (p : Nat) (mem : Memory) (w : Nat) (strings : List (List UInt8)) (ptrs : List Nat) :
    Prop where
  words : WordsAt mem w ptrs
  copied : Copied L' p mem ptrs strings
  nodup : ptrs.Nodup
  fresh : ∀ ptr ∈ ptrs, L.pages ptr = 0

theorem CopiesAt.nil {mem : Memory} {w : Nat} : CopiesAt L L' p mem w [] [] :=
  ⟨trivial, .nil, List.nodup_nil, fun _ hptr => (List.not_mem_nil hptr).elim⟩

/-- The copy of one turn stays while the later ones are made behind it. -/
theorem CopiesAt.cons {L₁ : Ledger} {m : Memory} {ptr : Nat} {ptrs : List Nat} {strings : List (List UInt8)}
    (h : CopiesAt L₁ L' p m (argv + 4 * (i + 1)) strings ptrs) (hs : Populated C s L) (h₁ : Populated C t L₁)
    (hgrows : L.Grows p L₁) (hgrows' : L₁.Grows p L') (hargv : L.Given p argv size) (hroom : 4 * (i + 1) ≤ size)
    (hfree : L.pages ptr = 0) (hgiven : L₁.Given p ptr sizeofArgument)
    (hmem : ∀ a, L₁.Steady p a → ¬ (argv + 4 * (i + 1) ≤ a ∧ a < argv + size) → m a = t.ram.mem a)
    (hword : read32 t.ram.mem (argv + 4 * i) = ptr) :
    CopiesAt L L' p m (argv + 4 * i) (argumentAt t.ram.mem ptr :: strings) (ptr :: ptrs) := by
  have hlive : L₁.pages ptr ≠ 0 := by
    obtain ⟨_, hown, _⟩ := h₁.given hgiven
    exact hown.live
  refine ⟨⟨?_, ?_⟩, .cons ⟨hgrows'.given _ _ hgiven, ?_⟩ h.copied,
    List.nodup_cons.mpr ⟨fun hptr => hlive (h.fresh ptr hptr), h.nodup⟩, fun q hq => ?_⟩
  · rw [← hword]
    refine read32_congr fun b h1 h2 => hmem b (h₁.given_steady (hgrows.given _ _ hargv) ?_ ?_) ?_ <;> omega
  · rw [show argv + 4 * i + 4 = argv + 4 * (i + 1) by omega]
    exact h.words
  · -- the copy lies apart from `argv`
    refine stringAt_congr fun b h1 h2 => hmem b (h₁.given_steady hgiven h1 h2) fun hin => ?_
    exact h₁.given_apart hgrows (hs.given_steady hargv (by omega) (by omega)) hfree hgiven ⟨h1, h2⟩
  · rcases List.mem_cons.mp hq with rfl | hq
    · exact hfree
    · exact hgrows.fresh (h.fresh q hq)

/-- The loop copies the rest of the list; by induction on its nodes. -/
theorem injectFrom_spec {n : Nat} (hn : nodes.length < n) (h : Populated C s L) (hp : L.space p = some sp)
    (hlist : CommandList s.ram.mem current nodes) (hreads : ∀ v ∈ nodes, L.Reads p argv size v)
    (hargv : L.Given p argv size) (hroom : 4 * (i + nodes.length) ≤ size) :
    wp (injectFrom A p argv n current i) (fun res t => SlotsOnly s t p ∧ ∃ L', Populated C t L' ∧ L.Grows p L' ∧
      (∀ a, L.Steady p a → ¬ (argv + 4 * i ≤ a ∧ a < argv + size) → t.ram.mem a = s.ram.mem a) ∧
      Decided A (List.replicate nodes.length sizeofArgument) s.ram.heap sp res ∧
      (res < 0 ∨ res = 0 ∧
        ∃ ptrs, CopiesAt L L' p t.ram.mem (argv + 4 * i) (nodes.map (copiedString s.ram.mem)) ptrs))
      (fun _ => ¬ A.Supplies (List.replicate nodes.length sizeofArgument) s.ram.heap) s := by
  induction nodes generalizing n current i s L sp with
  | nil =>
    cases hlist
    cases n with
    | zero => exact absurd hn (Nat.not_lt_zero _)
    | succ n =>
      unfold injectFrom
      rw [if_pos rfl]
      exact ⟨SlotsOnly.refl s p, L, h, .refl hp, fun _ _ _ => rfl, fun _ =>
        ⟨fun _ => rfl, fun hlt => absurd hlt (Nat.not_lt_zero _)⟩, .inr ⟨rfl, [], .nil⟩⟩
  | cons v rest ih =>
    cases hlist with
    | cons hne hrest =>
    cases n with
    | zero => exact absurd hn (Nat.not_lt_zero _)
    | succ n =>
      unfold injectFrom
      rw [if_neg hne]
      simp only [List.length_cons] at hroom hn
      rw [List.length_cons, List.replicate_succ]
      have hv := hreads v (List.mem_cons_self ..)
      refine wp.bind (wp.mono (copyArgument_spec h hp hv hargv (by omega)) (fun _ _ hcopy => hcopy)
        fun _ hnone hsupply => hsupply.answers hnone) fun res t ⟨hslots, L₁, h₁, hgrows, hmem, hres⟩ => ?_
      have hframe : ∀ a, L.Steady p a → ¬ (argv + 4 * i ≤ a ∧ a < argv + size) → t.ram.mem a = s.ram.mem a :=
        fun a ha hout => hmem a ha (by omega)
      split
      · rename_i hneg
        exact ⟨hslots, L₁, h₁, hgrows, hframe, (hres.resolve_right fun h => by omega).2.decided hneg, .inl hneg⟩
      rename_i hok
      obtain ⟨_, ptr, hfree, hword, hgiven, hstring, hanswer, sp₁, hp₁, hslot⟩ := hres.resolve_left fun h => hok h.1
      -- the nodes are as they were
      have hsame : ∀ w ∈ v :: rest, ∀ k, k < sizeofCommandArgument → t.ram.mem (w + k) = s.ram.mem (w + k) := by
        intro w hw k hk
        obtain ⟨hsteady, hout⟩ := hreads w hw k hk
        exact hframe _ hsteady (by omega)
      have hfit : ∀ w ∈ v :: rest, w + sizeofCommandArgument ≤ 2 ^ 32 := fun w hw =>
        h.node_fits fun k hk => (hreads w hw k hk).1
      rw [wp_bind, wp_get, commandNext_congr (hfit v (List.mem_cons_self ..)) (hsame v (List.mem_cons_self ..))]
      refine wp.mono (ih (by omega) h₁ hp₁ (hrest.congr (fun w hw => hfit w (List.mem_cons_of_mem v hw))
          fun w hw => hsame w (List.mem_cons_of_mem v hw))
        (fun w hw => (hreads w (List.mem_cons_of_mem v hw)).grows hgrows) (hgrows.given _ _ hargv) (by omega))
        (fun res' u hrun => ?_) fun _ hnone hsupply => hnone (hsupply.next hanswer).2
      obtain ⟨hslots', L', h', hgrows', hmem', hdecided, hres'⟩ := hrun
      refine ⟨hslots.trans hslots', L', h', hgrows.trans hgrows', fun a ha hout => ?_,
        Answered.decided hanswer hslot hdecided, hres'.imp_right ?_⟩
      · rw [hmem' a (hgrows.steady ha) (by omega)]
        exact hframe a ha hout
      · rintro ⟨hzero, ptrs, hcopies⟩
        have hmap : rest.map (copiedString t.ram.mem) = rest.map (copiedString s.ram.mem) :=
          List.map_congr_left fun w hw => copiedString_congr (hsame w (List.mem_cons_of_mem v hw))
        rw [hmap] at hcopies
        rw [List.map_cons, ← hstring]
        exact ⟨hzero, _, hcopies.cons h h₁ hgrows hgrows' hargv (by omega) hfree hgiven hmem' hword⟩

attribute [local irreducible] injectFrom countFrom

/-- The arguments are in allocations of the process. -/
structure Injected (s : Kernel H) (L : Ledger) (p : Nat) (P : Process) (strings : List (List UInt8)) : Prop where
  argc : P.arguments.argc = strings.length
  argv : L.Given p P.arguments.argv (4 * strings.length)
  words : ∃ ptrs, WordsAt s.ram.mem P.arguments.argv ptrs ∧ Copied L p s.ram.mem ptrs strings ∧
    (P.arguments.argv :: ptrs).Nodup

/-- The fields a process keeps while it gets its arguments. -/
theorem Populated.putArguments {P : Process} (h : Populated C s L) (hP : s.process p = some P)
    (arguments : ProcessArguments) : Populated C (s.putProcess p (some {P with arguments := arguments})) L := by
  have hself : (s.putProcess p (some {P with arguments := arguments})).process p = some {P with arguments :=
    arguments} :=
    Function.update_self ..
  have hcases : ∀ q sq, L.space q = some sq → Held C (s.putProcess p (some {P with arguments := arguments})) L q sq ∧
      ∃ Q, Resident (s.putProcess p (some {P with arguments := arguments})) L q Q := by
    intro q sq hq
    by_cases hqp : q = p
    · subst hqp
      obtain ⟨P', T, D, hheld⟩ := h.accounts.held q sq hq
      obtain ⟨Q, hQ⟩ := h.resident q sq hq
      obtain rfl : P = P' := Option.some_inj.mp (hP.symm.trans hheld.process)
      obtain rfl : P = Q := Option.some_inj.mp (hP.symm.trans hQ.process)
      exact ⟨⟨_, T, D, hself, hheld.task, hheld.allocation, hheld.chunkOf, hheld.tables, hheld.blocks, hheld.nodup⟩,
        _, hQ.keeps (fun _ _ _ _ => ⟨rfl, rfl⟩) hself ⟨rfl, rfl, rfl, rfl⟩ rfl⟩
    · exact h.untouched hq (Function.update_of_ne hqp ..) (fun _ _ => rfl) (fun _ _ => rfl) (fun _ _ _ _ => ⟨rfl, rfl⟩)
        fun _ _ _ _ => rfl
  exact ⟨⟨h.accounts.valid, h.accounts.pages, fun q sq hq => (hcases q sq hq).1⟩, h.recorded,
    fun q sq hq => (hcases q sq hq).2⟩

/-- The count of a list that ends. -/
theorem processCountCommandArguments_spec {root : Nat} (hlist : CommandList s.ram.mem root nodes)
    (hlen : nodes.length < 2 ^ 32) : processCountCommandArguments root s = .ok (s32 nodes.length, s) := by
  unfold processCountCommandArguments
  rw [countFrom_eq hlist, if_pos hlen, Nat.zero_add]

/-- Nodes in blocks of the heap or below it are fewer than `2 ^ 27`. -/
theorem Populated.length_lt (h : Populated C s L) {root : Nat} (hlist : CommandList s.ram.mem root nodes)
    (hsteady : ∀ v ∈ nodes, ∀ k, k < sizeofCommandArgument → L.Steady p (v + k)) : nodes.length ≤ 2 ^ 27 :=
  hlist.length_le fun v hv => h.steady_lt (hsteady v hv 0 (by decide))

/-- **The arguments of the list are copied for the process**, or memory for them is missing. -/
theorem processInjectArguments_spec {root : Nat} (h : Populated C s L) (hp : L.space p = some sp)
    (hlist : CommandList s.ram.mem root nodes)
    (hsteady : ∀ v ∈ nodes, ∀ k, k < sizeofCommandArgument → L.Steady p (v + k)) :
    wp (processInjectArguments A p root) (fun res t => t.currentProcess = s.currentProcess ∧
      ∃ L', Populated C t L' ∧ L.Grows p L' ∧
        (nodes ≠ [] → Decided A (4 * nodes.length :: List.replicate nodes.length sizeofArgument) s.ram.heap sp res) ∧
        ((res < 0 ∧ SlotsOnly s t p) ∨ res = 0 ∧
          ∃ P, t.process p = some P ∧ Injected t L' p P (nodes.map (copiedString s.ram.mem))))
      (fun _ => ¬ A.Supplies (4 * nodes.length :: List.replicate nodes.length sizeofArgument) s.ram.heap) s := by
  unfold processInjectArguments
  have hlen := h.length_lt hlist hsteady
  rw [wp_bind]
  refine (wp_ok (processCountCommandArguments_spec hlist (by omega))).mpr ?_
  rw [s32_of_lt (by omega)]
  split
  · rename_i hnil
    refine ⟨rfl, L, h, .refl hp, fun hne => absurd (List.eq_nil_of_length_eq_zero (by omega)) hne,
      .inl ⟨by decide, SlotsOnly.refl s p⟩⟩
  have hsize : u32 (4 * u32OfInt (nodes.length : Int)) = 4 * nodes.length := by
    rw [u32OfInt_natCast, u32_of_lt (show nodes.length < 2 ^ 32 by omega), u32_of_lt (by omega)]
  rw [hsize]
  refine wp.bind (wp.mono (h.grow hp _) (fun _ _ hgrow => hgrow) fun _ hnone hsupply => hsupply.answers hnone)
    fun argv u ⟨hslots, hmem, L₁, h₁, hgrows, hargv⟩ => ?_
  split
  · rename_i hnull
    have hdenied := (hargv.resolve_right fun h => h.1 hnull).2
    exact ⟨hslots.currentProcess, L₁, h₁, hgrows, fun _ => hdenied.decided (by decide), .inl ⟨by decide, hslots⟩⟩
  rename_i hne
  obtain ⟨_, hfree, hgiven, hanswer, sp₁, hp₁, hslot⟩ := hargv.resolve_left fun h => hne h.1
  have hsame : ∀ v ∈ nodes, ∀ k, k < sizeofCommandArgument → u.ram.mem (v + k) = s.ram.mem (v + k) :=
    fun v hv k hk => hmem _ (hsteady v hv k hk)
  have hreads : ∀ v ∈ nodes, L₁.Reads p argv (4 * nodes.length) v := fun v hv k hk =>
    ⟨hgrows.steady (hsteady v hv k hk), h₁.given_apart hgrows (hsteady v hv k hk) hfree hgiven⟩
  have hlist' := hlist.congr (fun v hv => h.node_fits (hsteady v hv)) hsame
  refine wp.bind (wp.mono (injectFrom_spec (by omega) h₁ hp₁ hlist' hreads hgiven (i := 0) (by omega))
    (fun _ _ hinject => hinject) fun _ hnone hsupply => hnone (hsupply.next hanswer).2) fun res v hinject => ?_
  obtain ⟨hslots', L₂, h₂, hgrows', _, hdecided, hres⟩ := hinject
  have hcurrent := hslots'.currentProcess.trans hslots.currentProcess
  have hdecided' : Decided A (4 * nodes.length :: List.replicate nodes.length sizeofArgument) s.ram.heap sp res :=
    Answered.decided hanswer hslot hdecided
  split
  · exact ⟨hcurrent, L₂, h₂, hgrows.trans hgrows', fun _ => hdecided', .inl ⟨‹_›, hslots.trans hslots'⟩⟩
  rename_i hok
  obtain ⟨rfl, ptrs, hwords, hcopied, hnodup, hfresh⟩ := hres.resolve_left hok
  obtain ⟨sp₂, hp₂⟩ := hgrows'.inhabited
  obtain ⟨P, hP⟩ := h₂.resident p sp₂ hp₂
  rw [wp_bind, wp_loadProcess hP.process, wp_bind, wp_storeProcess hP.process]
  have hargvLive : L₁.pages argv ≠ 0 := by
    obtain ⟨_, hown, _⟩ := h₁.given hgiven
    exact hown.live
  refine ⟨hcurrent, L₂, h₂.putArguments hP.process _, hgrows.trans hgrows', fun _ => hdecided',
    .inr ⟨rfl, _, Function.update_self .., ?_, ?_, ptrs, hwords, ?_, ?_⟩⟩
  · simp only [List.length_map]
  · simp only [List.length_map]
    exact hgrows'.given _ _ hgiven
  · have hmap : nodes.map (copiedString u.ram.mem) = nodes.map (copiedString s.ram.mem) :=
      List.map_congr_left fun w hw => copiedString_congr (hsame w hw)
    rwa [hmap] at hcopied
  · exact List.nodup_cons.mpr ⟨fun hmem => hargvLive (hfresh argv hmem), hnodup⟩

end Injection

end BasicOS

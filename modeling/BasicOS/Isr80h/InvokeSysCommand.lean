import BasicOS.Isr80h.ProcessArguments
import BasicOS.Paging.Walk
import BasicOS.Process.Injection

/-! The system call that starts a program with arguments, `sys_invoke_sys_command`.

The caller passes the address of a list of `struct command_argument`. The kernel translates
that address, and follows `next` under its own directory, where the words are physical
addresses. The new process has the strings the caller reads where the first node lies in one
piece, every other node at the address the caller has for it, and every string ends in its
field (`invokeSysCommand_sees_caller`): the walk of the kernel finds the same ones then
(`SeenAlike.sameArguments`), and a process gets what that walk finds
(`hasArguments_iff_sameArguments`). -/
namespace BasicOS
open Lib Program

variable {H : Type}

/-- `sys_invoke_sys_command`; `pointer` is what the program left on its stack. -/
def sysInvokeSysCommand (A : Allocator H) (vol : Volume) (junk : Uninitialised) (pointer : Nat) :
    Program Stop (Kernel H) Int := do
  let s ← get
  let task ← onTasks (loadTask s.taskList.currentTask)
  let arguments := pagingGetPhysicalAddress s.ram.mem (read32 s.ram.mem task.pageDirectory) pointer
  if arguments = 0 ∨ s.ram.mem arguments = 0 then return -einvarg
  -- `strncpy(path+3, prog_name, sizeof(path))`; what it may write behind `path` is on the kernel's stack
  let path := [0x30, 0x3A, 0x2F] ++ stringAt s.ram.mem arguments (fsMaxPathLen - 1)
  let (res, process) ← processLoadSwitch A vol junk path
  if res < 0 then return res
  let process := process.getD 0
  let res ← processInjectArguments A process arguments
  if res < 0 then return res
  let p ← loadProcess process
  let _ ← onTasks (taskSwitch p.task)
  return 0

/-! ### What is promised -/

/-- The node lies in the caller's image, stack or allocations: readable, and in a block of the heap. -/
def LaidOut {A : Allocator H} (C : Contract A) (s : Kernel H) (dEntry v : Nat) : Prop :=
  ∀ k, k < sizeofCommandArgument → UserReadable s.ram.mem dEntry (u32 (v + k)) ∧
    ∃ b, C.pages s.ram b ≠ 0 ∧ (C.block s.ram b).Holds (physicalAddress s.ram.mem dEntry (u32 (v + k)))

/-- The list looks the same from the caller's directory and from the kernel's. -/
structure SeenAlike (mem : Memory) (dEntry : Nat) (nodes : List Nat) : Prop where
  empty : nodes = [] → pagingGetPhysicalAddress mem dEntry 0 = 0
  first : ∀ v ∈ nodes.head?, ∀ k, k < sizeofCommandArgument →
    physicalAddress mem dEntry (u32 (v + k)) = physicalAddress mem dEntry v + k
  rest : ∀ v ∈ nodes.tail, ∀ k, k < sizeofCommandArgument → physicalAddress mem dEntry (u32 (v + k)) = v + k
  terminated : ∀ v ∈ nodes, ∃ k, k < sizeofArgument ∧ userView mem dEntry (v + k) = 0

/-- Node by node the list in memory has the strings of a list in the view, cut off as `strncpy` does. -/
inductive SameArguments (mem view : Memory) : Nat → Nat → Prop where
  | nil : SameArguments mem view 0 0
  | cons {a v} (ha : a ≠ 0) (hv : v ≠ 0) (hstring : copiedString mem a = argumentAt view v)
      (hrest : SameArguments mem view (commandNext mem a) (commandNext view v)) : SameArguments mem view a v

/-- Wherever the kernel's walk from an address comes, the node there is memory in use. -/
def WalkInUse {A : Allocator H} (C : Contract A) (r : Ram H) (root : Nat) : Prop :=
  ∀ a, Relation.ReflTransGen (fun a b => a ≠ 0 ∧ commandNext r.mem a = b) root a → a ≠ 0 →
    ∀ k, k < sizeofCommandArgument → C.InUse r (a + k)

/-! ### The two walks -/

section Walks

variable {A : Allocator H} {C : Contract A} {r : Ram H} {mem view m : Memory} {a b v : Nat} {nodes places : List Nat}

/-- The node behind a node of the list. -/
theorem CommandList.next_mem (h : CommandList mem a nodes) (hb : b ∈ nodes) :
    commandNext mem b = 0 ∨ commandNext mem b ∈ nodes := by
  induction h with
  | nil => cases hb
  | @cons a rest _ hrest ih =>
    rcases List.mem_cons.mp hb with rfl | hb
    · generalize commandNext mem b = next at hrest
      cases hrest with
      | nil => exact .inl rfl
      | cons _ _ => exact .inr (List.mem_cons_of_mem _ (List.mem_cons_self ..))
    · exact (ih hb).imp_right (List.mem_cons_of_mem _)

theorem WalkInUse.next (h : WalkInUse C r a) (ha : a ≠ 0) : WalkInUse C r (commandNext r.mem a) :=
  fun b hb => h b (.head ⟨ha, rfl⟩ hb)

/-- A list all of whose nodes are in use is walked in use. -/
theorem CommandList.walkInUse (h : CommandList r.mem a nodes)
    (hnodes : ∀ v ∈ nodes, ∀ k, k < sizeofCommandArgument → C.InUse r (v + k)) : WalkInUse C r a := by
  have hfirst : a = 0 ∨ a ∈ nodes := by
    cases h with
    | nil => exact .inl rfl
    | cons _ _ => exact .inr (List.mem_cons_self ..)
  intro b hb
  have hplace : b = 0 ∨ b ∈ nodes := by
    induction hb with
    | refl => exact hfirst
    | tail _ hstep ih =>
      obtain ⟨hne, rfl⟩ := hstep
      exact h.next_mem (ih.resolve_left hne)
  exact fun hne => hnodes b (hplace.resolve_left hne)

/-- Memory in use lies below the end of the heap. -/
theorem Contract.inUse_lt (hvalid : C.Valid r.heap) (h : C.InUse r b) : b < 2 ^ 27 := by
  rcases h with hlow | ⟨c, hc, hholds⟩
  · simp only [heapBaseAddress] at hlow
    omega
  · obtain ⟨_, _, hend⟩ := C.placed hvalid hc
    have hlast := hholds.2
    simp only [heapBaseAddress, heapMaxHeapSize] at hend
    change b < c + C.live r.heap c * heapBlockSize at hlast
    omega

/-- So does a node that is in use. -/
theorem Contract.node_fits (hvalid : C.Valid r.heap) (h : ∀ k, k < sizeofCommandArgument → C.InUse r (a + k)) :
    a + sizeofCommandArgument ≤ 2 ^ 32 := by
  have hlast := Contract.inUse_lt hvalid (h (sizeofCommandArgument - 1) (by decide))
  simp only [sizeofCommandArgument] at *
  omega

/-- A memory that is the same wherever it is in use has the list that is walked in use. -/
theorem WalkInUse.list (hvalid : C.Valid r.heap) (hwalk : WalkInUse C r a)
    (hsame : ∀ b, C.InUse r b → m b = r.mem b) (h : CommandList m a nodes) :
    CommandList r.mem a nodes ∧ ∀ v ∈ nodes, ∀ k, k < sizeofCommandArgument → C.InUse r (v + k) := by
  induction h with
  | nil => exact ⟨.nil, fun v hv => by cases hv⟩
  | @cons a rest hne _ ih =>
    have hself := hwalk a .refl hne
    rw [commandNext_congr (Contract.node_fits hvalid hself) fun k hk => hsame _ (hself k hk)] at ih
    obtain ⟨hrest, hinUse⟩ := ih (hwalk.next hne)
    refine ⟨.cons hne hrest, fun v hv => ?_⟩
    rcases List.mem_cons.mp hv with rfl | hv
    · exact hself
    · exact hinUse v hv

/-- The strings are the same just when a list in memory has them. -/
theorem sameArguments_iff (hlist : CommandList view v nodes) : SameArguments mem view a v ↔
    ∃ places, CommandList mem a places ∧ places.map (copiedString mem) = nodes.map (argumentAt view) := by
  induction hlist generalizing a with
  | nil =>
    constructor
    · intro h
      cases h with
      | nil => exact ⟨[], .nil, rfl⟩
      | cons _ hv _ _ => exact absurd rfl hv
    · rintro ⟨places, hplaces, hstrings⟩
      obtain rfl : places = [] := List.map_eq_nil_iff.mp hstrings
      cases hplaces
      exact .nil
  | @cons v rest hv _ ih =>
    constructor
    · intro h
      cases h with
      | nil => exact absurd rfl hv
      | cons ha _ hstring hrest =>
        obtain ⟨places, hplaces, hstrings⟩ := ih.mp hrest
        exact ⟨a :: places, .cons ha hplaces, by rw [List.map_cons, List.map_cons, hstring, hstrings]⟩
    · rintro ⟨places, hplaces, hstrings⟩
      cases hplaces with
      | nil => cases hstrings
      | cons ha hrest =>
        obtain ⟨hstring, hstrings⟩ := List.cons.inj hstrings
        exact .cons ha hv hstring (ih.mpr ⟨_, hrest, hstrings⟩)

end Walks

/-! ### Placement -/

section Placement

variable {A : Allocator H} {C : Contract A} {s : Kernel H} {mem : Memory} {dEntry a v pointer : Nat} {nodes : List Nat}

/-- In the view an address goes around at 4 GiB anyway. -/
theorem commandNext_userView (mem : Memory) (dEntry v : Nat) :
    commandNext (userView mem dEntry) v = read32 (userView mem dEntry) (v + sizeofArgument) := by
  have hbyte : ∀ j, userView mem dEntry (u32 (v + sizeofArgument) + j) = userView mem dEntry (v + sizeofArgument + j) := by
    intro j
    unfold userView u32
    rw [Nat.mod_add_mod]
  have h0 := hbyte 0
  rw [Nat.add_zero, Nat.add_zero] at h0
  unfold commandNext read32
  rw [h0, hbyte 1, hbyte 2, hbyte 3]

theorem commandNext_shift (hfit : a + sizeofCommandArgument ≤ 2 ^ 32)
    (hbytes : ∀ k, k < sizeofCommandArgument → mem (a + k) = userView mem dEntry (v + k)) :
    commandNext mem a = commandNext (userView mem dEntry) v := by
  have hword : ∀ j, j < 4 → mem (a + sizeofArgument + j) = userView mem dEntry (v + sizeofArgument + j) := by
    intro j hj
    rw [Nat.add_assoc, Nat.add_assoc]
    exact hbytes _ (by simp only [sizeofArgument, sizeofCommandArgument]; omega)
  have h0 := hword 0 (by decide)
  rw [Nat.add_zero, Nat.add_zero] at h0
  rw [commandNext_eq mem hfit, commandNext_userView]
  unfold read32
  rw [h0, hword 1 (by decide), hword 2 (by decide), hword 3 (by decide)]

/-- Where a node has the bytes of a node of the view, and its string ends, they are the same argument. -/
theorem sameArguments_cons (ha : a ≠ 0) (hv : v ≠ 0) (hfit : a + sizeofCommandArgument ≤ 2 ^ 32)
    (hbytes : ∀ k, k < sizeofCommandArgument → mem (a + k) = userView mem dEntry (v + k))
    (hend : ∃ k, k < sizeofArgument ∧ userView mem dEntry (v + k) = 0)
    (hrest : SameArguments mem (userView mem dEntry) (commandNext (userView mem dEntry) v)
      (commandNext (userView mem dEntry) v)) : SameArguments mem (userView mem dEntry) a v := by
  have hstring : stringAt mem a sizeofArgument = stringAt (userView mem dEntry) v sizeofArgument :=
    stringAt_shift fun k hk => hbytes k (Nat.lt_of_lt_of_le hk (by decide))
  obtain ⟨k, hk, hzero⟩ := hend
  have hcut : stringAt mem a sizeofArgument = copiedString mem a :=
    stringAt_succ (n := sizeofArgument - 1) (Nat.le_of_lt_succ hk)
      ((hbytes k (Nat.lt_of_lt_of_le hk (by decide))).trans hzero)
  refine .cons ha hv (hcut.symm.trans hstring) ?_
  rw [commandNext_shift hfit hbytes]
  exact hrest

/-- A list that lies at the same bytes in memory and in the view. -/
theorem sameArguments_inPlace (hlist : CommandList (userView mem dEntry) a nodes)
    (hfit : ∀ v ∈ nodes, v + sizeofCommandArgument ≤ 2 ^ 32)
    (hbytes : ∀ v ∈ nodes, ∀ k, k < sizeofCommandArgument → mem (v + k) = userView mem dEntry (v + k))
    (hend : ∀ v ∈ nodes, ∃ k, k < sizeofArgument ∧ userView mem dEntry (v + k) = 0) :
    SameArguments mem (userView mem dEntry) a a := by
  induction hlist with
  | nil => exact .nil
  | @cons a rest ha _ ih =>
    have hrest := ih (fun v hv => hfit v (List.mem_cons_of_mem _ hv)) (fun v hv => hbytes v (List.mem_cons_of_mem _ hv))
      fun v hv => hend v (List.mem_cons_of_mem _ hv)
    have hself := List.mem_cons_self (a := a) (l := rest)
    exact sameArguments_cons ha ha (hfit a hself) (hbytes a hself) (hend a hself) hrest

/-- The kernel translates an address as the processor does where the program may read. -/
theorem LaidOut.translated (h : LaidOut C s dEntry v) (hv : v < 2 ^ 32) :
    pagingGetPhysicalAddress s.ram.mem dEntry v = physicalAddress s.ram.mem dEntry v := by
  obtain ⟨hreadable, _⟩ := h 0 (by decide)
  rw [Nat.add_zero, u32_of_lt hv] at hreadable
  rw [pagingGetPhysicalAddress_eq, pagingGet_page hreadable.present_and]
  rfl

/-- The bytes of a node that lie behind each other are in use. -/
theorem LaidOut.inUse (h : LaidOut C s dEntry v)
    (hbytes : ∀ k, k < sizeofCommandArgument → physicalAddress s.ram.mem dEntry (u32 (v + k)) = a + k) :
    ∀ k, k < sizeofCommandArgument → C.InUse s.ram (a + k) := by
  intro k hk
  obtain ⟨_, b, hlive, hholds⟩ := h k hk
  rw [hbytes k hk] at hholds
  exact .inr ⟨b, hlive, hholds⟩

/-- **Placement that is enough**: the first node in one piece, the others where virtual is physical. -/
theorem SeenAlike.sameArguments (hvalid : C.Valid s.ram.heap) (hp : pointer < 2 ^ 32)
    (hlist : CommandList (userView s.ram.mem dEntry) pointer nodes) (hlaid : ∀ v ∈ nodes, LaidOut C s dEntry v)
    (hseen : SeenAlike s.ram.mem dEntry nodes) :
    SameArguments s.ram.mem (userView s.ram.mem dEntry) (pagingGetPhysicalAddress s.ram.mem dEntry pointer) pointer ∧
      WalkInUse C s.ram (pagingGetPhysicalAddress s.ram.mem dEntry pointer) := by
  cases hlist with
  | nil =>
    rw [hseen.empty rfl]
    exact ⟨.nil, CommandList.walkInUse .nil fun v hv => by cases hv⟩
  | @cons _ rest hne hrest =>
    have hhead := hlaid pointer (List.mem_cons_self ..)
    have hfirst := hseen.first pointer rfl
    rw [hhead.translated hp]
    have hinUse := hhead.inUse hfirst
    have hroot : physicalAddress s.ram.mem dEntry pointer ≠ 0 := by
      obtain ⟨_, b, hlive, hholds, _⟩ := hhead 0 (by decide)
      have hbase := (C.placed hvalid hlive).2.1
      rw [hfirst 0 (by decide)] at hholds
      change b ≤ _ at hholds
      simp only [heapBaseAddress] at hbase
      omega
    have hplaces : ∀ v ∈ rest, ∀ k, k < sizeofCommandArgument →
        s.ram.mem (v + k) = userView s.ram.mem dEntry (v + k) := fun v hv k hk =>
      congrArg s.ram.mem (hseen.rest v hv k hk).symm
    have hrestInUse : ∀ v ∈ rest, ∀ k, k < sizeofCommandArgument → C.InUse s.ram (v + k) := fun v hv =>
      (hlaid v (List.mem_cons_of_mem _ hv)).inUse (hseen.rest v hv)
    have hfit : ∀ v ∈ rest, v + sizeofCommandArgument ≤ 2 ^ 32 := fun v hv =>
      Contract.node_fits hvalid (hrestInUse v hv)
    have hsame := sameArguments_inPlace hrest hfit hplaces fun v hv => hseen.terminated v (List.mem_cons_of_mem _ hv)
    have hbytes : ∀ k, k < sizeofCommandArgument →
        s.ram.mem (physicalAddress s.ram.mem dEntry pointer + k) = userView s.ram.mem dEntry (pointer + k) :=
          fun k hk =>
      congrArg s.ram.mem (hfirst k hk).symm
    have hargs := sameArguments_cons hroot hne (Contract.node_fits hvalid hinUse) hbytes
      (hseen.terminated pointer (List.mem_cons_self ..)) hsame
    have hlist : CommandList s.ram.mem (physicalAddress s.ram.mem dEntry pointer)
        (physicalAddress s.ram.mem dEntry pointer :: rest) := by
      refine .cons hroot ?_
      rw [commandNext_shift (Contract.node_fits hvalid hinUse) hbytes]
      exact hrest.congr hfit hplaces
    refine ⟨hargs, hlist.walkInUse fun v hv => ?_⟩
    rcases List.mem_cons.mp hv with rfl | hv
    · exact hinUse
    · exact hrestInUse v hv

end Placement

/-! ### What the call does -/

section Call

variable {A : Allocator H} {C : Contract A} {s t : Kernel H} {L : Ledger} {p pointer root : Nat} {nodes : List Nat}
  {P : Process} {T : Task} {strings : List (List UInt8)} {vol : Volume} {junk : Uninitialised}

theorem Injected.hasArguments (h : Injected s L p P strings)
    (hP : s.process p = some P) : HasArguments s p strings := by
  obtain ⟨ptrs, hwords, hcopied, _⟩ := h.words
  refine ⟨P, hP, h.argc, fun i hi => ?_⟩
  have hlen : i < ptrs.length := by rwa [hcopied.length_eq]
  rw [hwords.get hlen]
  exact (hcopied.get hlen hi).2

theorem HasArguments.unique {arguments : List (List UInt8)} (h : HasArguments s p arguments)
    (h' : HasArguments s p strings) :
    arguments = strings := by
  obtain ⟨P, hP, hargc, hstrings⟩ := h
  obtain ⟨P', hP', hargc', hstrings'⟩ := h'
  obtain rfl : P = P' := Option.some_inj.mp (hP.symm.trans hP')
  have hlength : arguments.length = strings.length := by
    rw [hargc] at hargc'
    exact_mod_cast hargc'
  exact List.ext_getElem hlength fun i hi hi' => (hstrings i hi).symm.trans (hstrings' i hi')

attribute [local irreducible] processLoadSwitch processInjectArguments

/-- What follows the load: the arguments of the list, and the switch to the new task. -/
theorem sysInvokeSysCommand_passes {sp : Space} (h : Populated C s L) (hp : L.space p = some sp)
    (hlist : CommandList s.ram.mem root nodes)
    (hsteady : ∀ v ∈ nodes, ∀ k, k < sizeofCommandArgument → L.Steady p (v + k)) :
    wp (do
        let res ← processInjectArguments A p root
        if res < 0 then return res
        let P ← loadProcess p
        let _ ← onTasks (taskSwitch P.task)
        return 0)
      (fun res t => (nodes ≠ [] → Decided A (4 * nodes.length :: List.replicate nodes.length sizeofArgument) s.ram.heap sp res) ∧
        (res < 0 ∨ res = 0 ∧ t.currentProcess = s.currentProcess ∧
          HasArguments t p (nodes.map (copiedString s.ram.mem))))
      (fun _ => ¬ A.Supplies (4 * nodes.length :: List.replicate nodes.length sizeofArgument) s.ram.heap) s := by
  refine wp.bind (processInjectArguments_spec h hp hlist hsteady) fun res u hu => ?_
  obtain ⟨hcurrent, L', h', hgrows, hdecided, hres⟩ := hu
  split
  · exact ⟨hdecided, .inl ‹_›⟩
  rename_i hok
  obtain ⟨rfl, P, hP, hinjected⟩ := hres.resolve_left fun h => hok h.1
  obtain ⟨sp', hp'⟩ := hgrows.inhabited
  obtain ⟨Q, T, D, hheld⟩ := h'.accounts.held p sp' hp'
  obtain rfl : P = Q := Option.some_inj.mp (hP.symm.trans hheld.process)
  rw [wp_bind]
  refine (wp_loadProcess hP).mpr ?_
  unfold taskSwitch onTasks
  rw [wp_bind, wp_zoom, wp_bind, wp_modify, wp_bind]
  have htask : loadTask P.task {u.taskList with currentTask := P.task} = .ok
    (T, {u.taskList with currentTask := P.task}) := by
    unfold loadTask
    rw [hheld.task]
  refine (wp_ok htask).mpr ?_
  exact ⟨hdecided, .inr ⟨rfl, hcurrent, hinjected.hasArguments hP⟩⟩

/-- Bytes in use before a load are nothing a new process touches. -/
theorem Ledger.Arrival.steady {b : Nat} {L' : Ledger} (h : Ledger.Arrival (Ledger.empty (C.live s.ram.heap)) p sp L')
    (hb : C.InUse s.ram b) : L'.Steady p b := by
  rcases hb with hlow | ⟨a, ha, hholds⟩
  · exact .inl hlow
  · obtain ⟨hpages, howner⟩ := h.kept a ha
    refine .inr ⟨a, by rwa [hpages], fun howned => ?_, hholds.1, ?_⟩
    · rw [howner] at howned
      cases howned
    · rw [hpages]
      exact hholds.2

/-- A call that succeeds has started a process with the arguments the kernel finds from `root` on. -/
theorem sysInvokeSysCommand_spec (hvalid : C.Valid s.ram.heap) (hT : s.taskList.tasks s.taskList.currentTask = some T)
    (hroot : root = pagingGetPhysicalAddress s.ram.mem (read32 s.ram.mem T.pageDirectory) pointer)
    (hwalk : WalkInUse C s.ram root) :
    Ensures (sysInvokeSysCommand A vol junk pointer) (fun res t => res < 0 ∨ res = 0 ∧ ∃ places,
      CommandList s.ram.mem root places ∧ HasArguments t t.currentProcess (places.map (copiedString s.ram.mem))) s := by
  unfold sysInvokeSysCommand
  rw [Ensures, wp_bind, wp_get, wp_bind, wp_onTasks_loadTask hT, ← hroot]
  dsimp only
  split
  · exact .inl (by decide)
  refine wp.bind (processLoadSwitch_loads junk hvalid) fun out t ht => ?_
  obtain ⟨res, process⟩ := out
  dsimp only
  rcases ht with hneg | ⟨p, hout, hcurrent, hloads⟩
  · rw [if_pos hneg]
    exact .inl hneg
  obtain ⟨rfl, rfl⟩ := Prod.mk.inj hout
  rw [if_neg (by decide)]
  obtain ⟨sp, L₁, xs, harrival, h₁, htaken⟩ := hloads.arrival (populated_empty hvalid)
  have hp : L₁.space p = some sp := by rw [harrival.space, Function.update_self]
  cases hcount : countFrom t.ram.mem (2 ^ 32) root 0 with
  | none =>
    -- the count does not end
    have hstops : processInjectArguments A p root t = .error .diverges := by
      unfold processInjectArguments
      have hcounts : processCountCommandArguments root t = .error .diverges := by
        unfold processCountCommandArguments
        rw [hcount]
      rw [bind_apply, hcounts]
    rw [wp_bind]
    exact (wp_error hstops).mpr trivial
  | some argc =>
    obtain ⟨places, hplaces⟩ := countFrom_list hcount
    obtain ⟨hlist, hinUse⟩ := hwalk.list hvalid (fun b hb => htaken.inUse hb) hplaces
    have hstrings : places.map (copiedString t.ram.mem) = places.map (copiedString s.ram.mem) :=
      List.map_congr_left fun v hv => copiedString_congr fun k hk => htaken.inUse (hinUse v hv k hk)
    refine wp.mono (sysInvokeSysCommand_passes h₁ hp hplaces fun v hv k hk => harrival.steady (hinUse v hv k hk))
      (fun res u hu => ?_) fun _ _ => trivial
    obtain hneg | ⟨hzero, hcurrent', hargs⟩ := hu.2
    · exact .inl hneg
    · refine .inr ⟨hzero, places, hlist, ?_⟩
      rw [hcurrent', hcurrent, ← hstrings]
      exact hargs

/-- The new process has the strings its caller reads just when the kernel's walk finds the same ones,
for every call that succeeds and walks through memory in use. -/
theorem hasArguments_iff_sameArguments (hvalid : C.Valid s.ram.heap)
    (hT : s.taskList.tasks s.taskList.currentTask = some T)
    (hlist : CommandList (userView s.ram.mem (read32 s.ram.mem T.pageDirectory)) pointer nodes)
    (hwalk : WalkInUse C s.ram (pagingGetPhysicalAddress s.ram.mem (read32 s.ram.mem T.pageDirectory) pointer))
    (hrun : sysInvokeSysCommand A vol junk pointer s = .ok (0, t)) :
    HasArguments t t.currentProcess
        (nodes.map (argumentAt (userView s.ram.mem (read32 s.ram.mem T.pageDirectory)))) ↔
      SameArguments s.ram.mem (userView s.ram.mem (read32 s.ram.mem T.pageDirectory))
        (pagingGetPhysicalAddress s.ram.mem (read32 s.ram.mem T.pageDirectory) pointer) pointer := by
  obtain hneg | ⟨_, places, hplaces, hargs⟩ := (sysInvokeSysCommand_spec hvalid hT rfl hwalk).returned hrun
  · exact absurd hneg (by decide)
  rw [sameArguments_iff hlist]
  constructor
  · intro hcaller
    exact ⟨places, hplaces, hargs.unique hcaller⟩
  · rintro ⟨places', hplaces', hstrings⟩
    obtain rfl := hplaces.unique hplaces'
    rwa [hstrings] at hargs

/-- **The new process has the strings its caller reads** where the first node of the list lies in one piece, every other
node at the address the caller has for it, and every string ends in its field. -/
theorem invokeSysCommand_sees_caller (hvalid : C.Valid s.ram.heap)
    (hT : s.taskList.tasks s.taskList.currentTask = some T) (hp : pointer < 2 ^ 32)
    (hlist : CommandList (userView s.ram.mem (read32 s.ram.mem T.pageDirectory)) pointer nodes)
    (hlaid : ∀ v ∈ nodes, LaidOut C s (read32 s.ram.mem T.pageDirectory) v)
    (hseen : SeenAlike s.ram.mem (read32 s.ram.mem T.pageDirectory) nodes)
    (hrun : sysInvokeSysCommand A vol junk pointer s = .ok (0, t)) :
    HasArguments t t.currentProcess
      (nodes.map (argumentAt (userView s.ram.mem (read32 s.ram.mem T.pageDirectory)))) := by
  obtain ⟨hsame, hwalk⟩ := SeenAlike.sameArguments hvalid hp hlist hlaid hseen
  exact (hasArguments_iff_sameArguments hvalid hT hlist hwalk hrun).mpr hsame

/-- With a program to load and memory for its arguments the call succeeds. -/
theorem sysInvokeSysCommand_returns {u : Kernel H} (hvalid : C.Valid s.ram.heap)
    (hT : s.taskList.tasks s.taskList.currentTask = some T)
    (hroot : root = pagingGetPhysicalAddress s.ram.mem (read32 s.ram.mem T.pageDirectory) pointer)
    (hprogram : s.ram.mem root ≠ 0) (hlist : CommandList s.ram.mem root nodes) (hne : root ≠ 0)
    (hinUse : ∀ v ∈ nodes, ∀ k, k < sizeofCommandArgument → C.InUse s.ram (v + k))
    (hload : processLoadSwitch A vol junk ([0x30, 0x3A, 0x2F] ++ stringAt s.ram.mem root (fsMaxPathLen - 1)) s =
      .ok ((0, some p), u)) (hP : u.process p = some P) (hslots : nodes.length + 1 ≤ freeSlots P.allocations)
    (hsupply : A.Supplies (4 * nodes.length :: List.replicate nodes.length sizeofArgument) u.ram.heap) :
    ∃ t, sysInvokeSysCommand A vol junk pointer s = .ok (0, t) := by
  obtain hneg | ⟨p', hout, _, hloads⟩ := (processLoadSwitch_loads junk hvalid).returned hload
  · exact absurd hneg (Int.lt_irrefl 0)
  obtain rfl : p = p' := Option.some_inj.mp (Prod.mk.inj hout).2
  obtain ⟨sp, L₁, xs, harrival, h₁, htaken⟩ := hloads.arrival (populated_empty hvalid)
  have hp : L₁.space p = some sp := by rw [harrival.space, Function.update_self]
  obtain ⟨Q, _, _, hheld⟩ := h₁.accounts.held p sp hp
  obtain rfl : P = Q := Option.some_inj.mp (hP.symm.trans hheld.process)
  have hnodes : nodes ≠ [] := by
    rintro rfl
    cases hlist
    exact hne rfl
  suffices h : wp (sysInvokeSysCommand A vol junk pointer) (fun res _ => res = 0) (fun _ => False) s by
    obtain ⟨res, t, hrun, rfl⟩ := h.returns
    exact ⟨t, hrun⟩
  unfold sysInvokeSysCommand
  rw [wp_bind, wp_get, wp_bind, wp_onTasks_loadTask hT, ← hroot]
  dsimp only
  rw [if_neg (not_or.mpr ⟨hne, hprogram⟩), wp_bind]
  refine (wp_ok hload).mpr ?_
  dsimp only
  rw [if_neg (show ¬ ((0, some p) : Int × Option Nat).1 < 0 from Int.lt_irrefl 0)]
  have hlist' := hlist.congr (fun v hv => Contract.node_fits hvalid (hinUse v hv)) fun v hv k hk =>
    htaken.inUse (hinUse v hv k hk)
  refine wp.mono (sysInvokeSysCommand_passes h₁ hp hlist' fun v hv k hk => harrival.steady (hinUse v hv k hk))
    (fun res t ht => ?_) fun _ hstops => hstops hsupply
  refine (ht.1 hnodes hsupply).1 ?_
  rw [List.length_cons, List.length_replicate, ← hheld.allocation]
  exact hslots

end Call

/-! ### A caller with a list from its stack to its allocation, and one from its image to its stack -/

/-- The words of the caller: its stack is the block at 0x1000000, its image the block behind it, and
the third one it was given by `malloc`. -/
def viewerEntry (k : Nat) : Nat :=
  if 0x3FB ≤ k ∧ k < 0x3FF then (k - 0x3FB + 0x1000) * 0x1000 + 7
  else if 0x400 ≤ k ∧ k < 0x404 then (k - 0x400 + 0x1004) * 0x1000 + 7
  else if 0x1008 ≤ k ∧ k < 0x100C then k * 0x1000 + 7
  else k * 0x1000 + 5

/-- The argument `x` on the stack's last page, and at the start of the image with `next` to it; `x` on the page
of the stack before it, with `next` to `yz` in the block from `malloc`. -/
def viewerBytes : Memory :=
  write32 (write32 (Function.update (Function.update (Function.update (Function.update (Function.update (fun _ => 0)
    0x1003000 120) 0x1004000 120) 0x1002000 120) 0x1008000 121) 0x1008001 122) 0x1004200 0x3FE000) 0x1002200 0x1008000

def viewerTask : Task := {zeroTask with pageDirectory := 0x1FF000}

def viewerKernel : Kernel Ladder where
  files := ⟨⟨⟨3, [0x1008000, 0x1004000, 0x1000000]⟩, flatMemory viewerEntry viewerBytes⟩, fun _ => none⟩
  taskList := ⟨Function.update (fun _ => none) 0x5000 (some viewerTask), 0, 0, 0x5000⟩
  process := fun _ => none
  elfFile := fun _ => none
  processes := fun _ => 0
  currentProcess := 0

theorem viewerKernel_valid : ladderContract.Valid viewerKernel.ram.heap := by
  refine ⟨by decide, fun b hb => ?_⟩
  rcases List.mem_cons.mp hb with rfl | hb
  · exact ⟨2, by decide, by decide⟩
  rcases List.mem_pair.mp hb with rfl | rfl
  · exact ⟨1, by decide, by decide⟩
  · exact ⟨0, by decide, by decide⟩

/-- The caller's directory. -/
theorem viewerKernel_directory : read32 viewerKernel.ram.mem viewerTask.pageDirectory = 0x200000 :=
  (flatMemory_chunk viewerEntry viewerBytes).directory

/-- The node can be read, and its bytes are those from `place` on. -/
abbrev ViewerNode (v place : Nat) : Prop := ∀ k, k < sizeofCommandArgument →
  UserReadable viewerKernel.ram.mem 0x200000 (u32 (v + k)) ∧
    physicalAddress viewerKernel.ram.mem 0x200000 (u32 (v + k)) = place + k

set_option maxRecDepth 100000 in
/-- The pages of the nodes from the image to the stack. -/
theorem viewer_pages :
    (UserReadable viewerKernel.ram.mem 0x200000 0x3FE000 ∧ UserReadable viewerKernel.ram.mem 0x200000 0x400000) ∧
      (physicalAddress viewerKernel.ram.mem 0x200000 0x3FE000 = 0x1003000 ∧
        physicalAddress viewerKernel.ram.mem 0x200000 0x400000 = 0x1004000) ∧
      pagingGetPhysicalAddress viewerKernel.ram.mem 0x200000 0x3FE000 = 0x1003000 ∧
      pagingGetPhysicalAddress viewerKernel.ram.mem 0x200000 0x400000 = 0x1004000 := by
  decide +kernel

set_option maxRecDepth 100000 in
/-- Where `next` leads, for the caller and in physical memory. -/
theorem viewer_nexts :
    (commandNext (userView viewerKernel.ram.mem 0x200000) 0x3FE000 = 0 ∧
        commandNext (userView viewerKernel.ram.mem 0x200000) 0x400000 = 0x3FE000) ∧
      commandNext viewerKernel.ram.mem 0x1003000 = 0 ∧ commandNext viewerKernel.ram.mem 0x1004000 = 0x3FE000 ∧
      commandNext viewerKernel.ram.mem 0x3FE000 = 0 := by
  decide +kernel

set_option maxRecDepth 100000 in
/-- The strings at the nodes, in physical memory and for the caller. -/
theorem viewer_strings :
    (stringAt viewerKernel.ram.mem 0x1003000 (fsMaxPathLen - 1) = [120] ∧
        stringAt viewerKernel.ram.mem 0x1004000 (fsMaxPathLen - 1) = [120]) ∧
      viewerKernel.ram.mem 0x1003000 = 120 ∧ viewerKernel.ram.mem 0x1004000 = 120 ∧
      viewerKernel.ram.mem 0x3FE000 = 0 ∧ userView viewerKernel.ram.mem 0x200000 0x3FE000 = 120 ∧
      userView viewerKernel.ram.mem 0x200000 0x3FE001 = 0 := by
  decide +kernel

set_option maxRecDepth 100000 in
/-- The nodes from the stack to the block: their pages, their links and where their strings end. -/
theorem viewer_passed :
    (UserReadable viewerKernel.ram.mem 0x200000 0x3FD000 ∧ UserReadable viewerKernel.ram.mem 0x200000 0x1008000) ∧
      (physicalAddress viewerKernel.ram.mem 0x200000 0x3FD000 = 0x1002000 ∧
        physicalAddress viewerKernel.ram.mem 0x200000 0x1008000 = 0x1008000) ∧
      pagingGetPhysicalAddress viewerKernel.ram.mem 0x200000 0x3FD000 = 0x1002000 ∧
      (commandNext (userView viewerKernel.ram.mem 0x200000) 0x1008000 = 0 ∧
        commandNext (userView viewerKernel.ram.mem 0x200000) 0x3FD000 = 0x1008000) ∧
      (commandNext viewerKernel.ram.mem 0x1008000 = 0 ∧ commandNext viewerKernel.ram.mem 0x1002000 = 0x1008000) ∧
      stringAt viewerKernel.ram.mem 0x1002000 (fsMaxPathLen - 1) = [120] ∧ viewerKernel.ram.mem 0x1002000 = 120 ∧
      userView viewerKernel.ram.mem 0x200000 0x3FD001 = 0 ∧ userView viewerKernel.ram.mem 0x200000 0x1008002 = 0 := by
  decide +kernel

/-- A node whose first page is readable lies on that page. -/
theorem viewerNode {v place : Nat} (hpage : v % 2 ^ 12 = 0) (hv : v + sizeofCommandArgument < 2 ^ 32)
    (hreadable : UserReadable viewerKernel.ram.mem 0x200000 v)
    (hplace : physicalAddress viewerKernel.ram.mem 0x200000 v = place) : ViewerNode v place := by
  intro k hk
  have hk' : k < 2 ^ 12 := Nat.lt_trans hk (by decide)
  have hsame : v / 2 ^ 12 = (v + k) / 2 ^ 12 := by omega
  rw [u32_of_lt (by omega), physicalAddress_add (by omega), hplace]
  exact ⟨(userReadable_page hsame).mp hreadable, rfl⟩

theorem viewerNode_stack : ViewerNode 0x3FE000 0x1003000 :=
  viewerNode (by decide) (by decide) viewer_pages.1.1 viewer_pages.2.1.1

theorem viewerNode_image : ViewerNode 0x400000 0x1004000 :=
  viewerNode (by decide) (by decide) viewer_pages.1.2 viewer_pages.2.1.2

theorem viewerNode_passed : ViewerNode 0x3FD000 0x1002000 ∧ ViewerNode 0x1008000 0x1008000 :=
  ⟨viewerNode (by decide) (by decide) viewer_passed.1.1 viewer_passed.2.1.1,
    viewerNode (by decide) (by decide) viewer_passed.1.2 viewer_passed.2.1.2⟩

/-- A node of the caller lies in a block of its own. -/
theorem ViewerNode.laidOut {v place block : Nat} (h : ViewerNode v place)
    (hblock : viewerKernel.ram.heap.pages block = 4)
    (hlow : block ≤ place) (hhigh : place + sizeofCommandArgument ≤ block + 4 * heapBlockSize) :
    LaidOut ladderContract viewerKernel 0x200000 v := by
  intro k hk
  obtain ⟨hreadable, hphysical⟩ := h k hk
  have hpages : ladderContract.pages viewerKernel.ram block = 4 := hblock
  refine ⟨hreadable, block, by rw [hpages]; decide, ?_⟩
  unfold Contract.block
  rw [hphysical, hpages, Extent.holds_mk]
  omega

theorem viewer_laidOut : LaidOut ladderContract viewerKernel 0x200000 0x3FE000 ∧
    LaidOut ladderContract viewerKernel 0x200000 0x400000 :=
  ⟨viewerNode_stack.laidOut (show viewerKernel.ram.heap.pages 0x1000000 = 4 by decide) (by decide) (by decide),
    viewerNode_image.laidOut (show viewerKernel.ram.heap.pages 0x1004000 = 4 by decide) (by decide) (by decide)⟩

theorem viewer_laidOut_passed : ∀ v ∈ [0x3FD000, 0x1008000], LaidOut ladderContract viewerKernel 0x200000 v := by
  intro v hv
  rcases List.mem_pair.mp hv with rfl | rfl
  · exact viewerNode_passed.1.laidOut (show viewerKernel.ram.heap.pages 0x1000000 = 4 by decide) (by decide) (by decide)
  · exact viewerNode_passed.2.laidOut (show viewerKernel.ram.heap.pages 0x1008000 = 4 by decide) (by decide) (by decide)

/-- What the load of `x` answers, the blocks given out then, and the slots of the process. -/
def viewerLoad : Option ((Int × Option Nat) × Nat × Option Nat) :=
  match processLoadSwitch ladder flatVolume ⟨0, 0⟩ pathX viewerKernel with
  | .ok (out, u) => some (out, u.ram.heap.next, (u.process 0x100C000).map fun P => freeSlots P.allocations)
  | .error _ => none

set_option maxRecDepth 100000 in
theorem viewerLoad_eq : viewerLoad = some ((0, some 0x100C000), 1051, some 1024) := by decide +kernel

/-- A list of the caller that starts with `x` is passed to the program. -/
theorem viewer_returns {pointer root : Nat} {nodes : List Nat} (hne : root ≠ 0)
    (hroot : pagingGetPhysicalAddress viewerKernel.ram.mem 0x200000 pointer = root)
    (hname : viewerKernel.ram.mem root ≠ 0)
    (hpath : [0x30, 0x3A, 0x2F] ++ stringAt viewerKernel.ram.mem root (fsMaxPathLen - 1) = pathX)
    (hlist : CommandList viewerKernel.ram.mem root nodes) (hlen : nodes.length ≤ 2)
    (hinUse : ∀ v ∈ nodes, ∀ k, k < sizeofCommandArgument → ladderContract.InUse viewerKernel.ram (v + k)) :
    ∃ t, sysInvokeSysCommand ladder flatVolume ⟨0, 0⟩ pointer viewerKernel = .ok (0, t) := by
  have hload := viewerLoad_eq
  unfold viewerLoad at hload
  cases hrun : processLoadSwitch ladder flatVolume ⟨0, 0⟩ pathX viewerKernel with
  | error e =>
    rw [hrun] at hload
    cases hload
  | ok a =>
    obtain ⟨out, u⟩ := a
    rw [hrun] at hload
    simp only [Option.some.injEq, Prod.mk.injEq] at hload
    obtain ⟨rfl, hnext, hslots⟩ := hload
    obtain ⟨P, hP, hfree⟩ := Option.map_eq_some_iff.mp hslots
    have hsupply : ladder.Supplies (4 * nodes.length :: List.replicate nodes.length sizeofArgument) u.ram.heap := by
      refine ladder_supplies u.ram.heap (fun size hsize => ?_) ?_
      · rcases List.mem_cons.mp hsize with rfl | hsize
        · simp only [ladderStep, heapBlockSize]
          omega
        · rw [List.eq_of_mem_replicate hsize]
          decide
      · rw [List.length_cons, List.length_replicate, hnext]
        omega
    rw [← hpath] at hrun
    refine sysInvokeSysCommand_returns viewerKernel_valid (T := viewerTask) rfl ?_ hname hlist hne hinUse hrun hP
      (by omega) hsupply
    rw [viewerKernel_directory, hroot]

/-- A list of one node, on the stack. -/
theorem viewer_list_stack : CommandList (userView viewerKernel.ram.mem 0x200000) 0x3FE000 [0x3FE000] :=
  .cons (by decide) (viewer_nexts.1.1.symm ▸ .nil)

/-- A list of two nodes, from the stack to the block. -/
theorem viewer_list_passed : CommandList (userView viewerKernel.ram.mem 0x200000) 0x3FD000 [0x3FD000, 0x1008000] :=
  .cons (by decide) (viewer_passed.2.2.2.1.2.symm ▸ .cons (by decide) (viewer_passed.2.2.2.1.1.symm ▸ .nil))

theorem viewer_seenAlike : SeenAlike viewerKernel.ram.mem 0x200000 [0x3FD000, 0x1008000] := by
  refine ⟨fun h => absurd h (List.cons_ne_nil _ _), fun v hv k hk => ?_, fun v hv k hk => ?_, fun v hv => ?_⟩
  · obtain rfl : 0x3FD000 = v := Option.some_inj.mp hv
    have hfirst := (viewerNode_passed.1 0 (by decide)).2
    rw [Nat.add_zero, Nat.add_zero, u32_of_lt (by decide)] at hfirst
    rw [(viewerNode_passed.1 k hk).2, hfirst]
  · obtain rfl : v = 0x1008000 := List.mem_singleton.mp hv
    exact (viewerNode_passed.2 k hk).2
  · rcases List.mem_pair.mp hv with rfl | rfl
    · exact ⟨1, by decide, viewer_passed.2.2.2.2.2.2.2.1⟩
    · exact ⟨2, by decide, viewer_passed.2.2.2.2.2.2.2.2⟩

/-- Two arguments, one on the stack and one in memory from `malloc`. -/
theorem invokeSysCommand_sees_two : ∃ t,
    sysInvokeSysCommand ladder flatVolume ⟨0, 0⟩ 0x3FD000 viewerKernel = .ok (0, t) ∧
      HasArguments t t.currentProcess ([0x3FD000, 0x1008000].map (argumentAt (userView viewerKernel.ram.mem
        (read32 viewerKernel.ram.mem viewerTask.pageDirectory)))) := by
  have hlist : CommandList viewerKernel.ram.mem 0x1002000 [0x1002000, 0x1008000] :=
    .cons (by decide) (viewer_passed.2.2.2.2.1.2.symm ▸ .cons (by decide) (viewer_passed.2.2.2.2.1.1.symm ▸ .nil))
  have hname : viewerKernel.ram.mem 0x1002000 ≠ 0 := by
    rw [viewer_passed.2.2.2.2.2.2.1]
    decide
  have hpath : [0x30, 0x3A, 0x2F] ++ stringAt viewerKernel.ram.mem 0x1002000 (fsMaxPathLen - 1) = pathX := by
    rw [viewer_passed.2.2.2.2.2.1]
    rfl
  obtain ⟨t, hrun⟩ := viewer_returns (by decide) viewer_passed.2.2.1 hname hpath hlist (by decide) fun v hv k hk => by
    rcases List.mem_pair.mp hv with rfl | rfl
    · exact (viewer_laidOut_passed _ (List.mem_cons_self ..)).inUse (fun k hk => (viewerNode_passed.1 k hk).2) k hk
    · exact (viewer_laidOut_passed _ (List.mem_cons_of_mem _ (List.mem_cons_self ..))).inUse
        (fun k hk => (viewerNode_passed.2 k hk).2) k hk
  have hview := viewer_list_passed
  have hlaid := viewer_laidOut_passed
  have hseen := viewer_seenAlike
  rw [← viewerKernel_directory] at hview hlaid hseen
  exact ⟨t, hrun, invokeSysCommand_sees_caller viewerKernel_valid (T := viewerTask) rfl (by decide) hview hlaid hseen hrun⟩

/-- **A second argument on the stack**: the kernel reads the bytes that are at its address for itself. -/
theorem invokeSysCommand_sees_other : ¬ ∀ (s t : Kernel Ladder) (vol : Volume) (junk : Uninitialised) (T : Task)
    (pointer : Nat) (nodes : List Nat), ladderContract.Valid s.ram.heap →
      s.taskList.tasks s.taskList.currentTask = some T →
      CommandList (userView s.ram.mem (read32 s.ram.mem T.pageDirectory)) pointer nodes →
      (∀ v ∈ nodes, LaidOut ladderContract s (read32 s.ram.mem T.pageDirectory) v) →
      sysInvokeSysCommand ladder vol junk pointer s = .ok (0, t) →
      HasArguments t t.currentProcess (nodes.map (argumentAt (userView s.ram.mem (read32 s.ram.mem T.pageDirectory)))) := by
  intro h
  have hview : CommandList (userView viewerKernel.ram.mem 0x200000) 0x400000 [0x400000, 0x3FE000] :=
    .cons (by decide) (viewer_nexts.1.2.symm ▸ viewer_list_stack)
  have hlist : CommandList viewerKernel.ram.mem 0x1004000 [0x1004000, 0x3FE000] := by
    refine .cons (by decide) ?_
    rw [viewer_nexts.2.2.1]
    refine .cons (by decide) ?_
    rw [viewer_nexts.2.2.2]
    exact .nil
  have hinUse : ∀ v ∈ [0x1004000, 0x3FE000], ∀ k, k < sizeofCommandArgument →
    ladderContract.InUse viewerKernel.ram (v + k) := by
    intro v hv k hk
    rcases List.mem_pair.mp hv with rfl | rfl
    · exact viewer_laidOut.2.inUse (fun k hk => (viewerNode_image k hk).2) k hk
    · refine .inl ?_
      simp only [heapBaseAddress, sizeofCommandArgument] at *
      omega
  have hname : viewerKernel.ram.mem 0x1004000 ≠ 0 := by
    rw [viewer_strings.2.2.1]
    decide
  have hpath : [0x30, 0x3A, 0x2F] ++ stringAt viewerKernel.ram.mem 0x1004000 (fsMaxPathLen - 1) = pathX := by
    rw [viewer_strings.1.2]
    rfl
  obtain ⟨t, hrun⟩ := viewer_returns (by decide) viewer_pages.2.2.2 hname hpath hlist (by decide) hinUse
  have hwalk := hlist.walkInUse hinUse
  have hcaller := h viewerKernel t flatVolume ⟨0, 0⟩ viewerTask 0x400000 [0x400000, 0x3FE000] viewerKernel_valid rfl
    (by rw [viewerKernel_directory]; exact hview) (by
      rw [viewerKernel_directory]
      intro v hv
      rcases List.mem_pair.mp hv with rfl | rfl
      · exact viewer_laidOut.2
      · exact viewer_laidOut.1) hrun
  rw [← viewer_pages.2.2.2, ← viewerKernel_directory] at hwalk
  rw [← viewerKernel_directory] at hview
  have hsame := (hasArguments_iff_sameArguments viewerKernel_valid (T := viewerTask) rfl hview hwalk hrun).mp hcaller
  obtain ⟨places, hplaces, hstrings⟩ := (sameArguments_iff hview).mp hsame
  rw [viewerKernel_directory] at hplaces hstrings
  rw [viewer_pages.2.2.2] at hplaces
  rw [hplaces.unique hlist] at hstrings
  -- the caller's second argument is `x`, the bytes at physical 0x3FE000 are the empty string
  have hsecond := (List.cons_eq_cons.mp (List.cons_eq_cons.mp hstrings).2).1
  have hempty : copiedString viewerKernel.ram.mem 0x3FE000 = [] := stringAt_zero viewer_strings.2.2.2.1 _
  have hchar : userView viewerKernel.ram.mem 0x200000 0x3FE000 ≠ 0 := by
    rw [viewer_strings.2.2.2.2.1]
    decide
  rw [hempty, argumentAt, show sizeofArgument = 511 + 1 by decide, stringAt_char hchar] at hsecond
  cases hsecond

end BasicOS

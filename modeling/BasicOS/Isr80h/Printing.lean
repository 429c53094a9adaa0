import BasicOS.Isr80h.PrintExt
import BasicOS.Isr80h.ProgramPath

/-! What the printing system calls give to `terminal_write`.

The loop of `terminal_write` stops at a zero and knows no size. It reads only what was
written during the call, inside the buffer, when the caller has put a zero there
(`PrintCall.Safe`). `isr_sys_print` and `isr_sys_print_ext` ignore what `copy_string_from_task`
returns: when the heap has no block for the copy nothing is written to the buffer on the stack,
and whatever was there is printed. A block of the heap is cleared first, so that a long
message is always safe. `sys_putchar` gives the address of a single character, and behind
that there is no zero of its own (`printing_safe_iff`). -/
namespace BasicOS
open Lib Program

variable {H : Type}

/-! ### The loop of `terminal_write` -/

/-- A call of `terminal_write`: its argument, the size of the buffer there, memory then, and the
addresses in the buffer written since the system call began. -/
structure PrintCall where
  str : Nat
  size : Nat
  mem : Memory
  written : List Nat

/-- The addresses the loop reads in so many turns. -/
def terminalWriteReads (mem : Memory) : Nat → Nat → List Nat
  | 0, _ => []
  | turns + 1, str => if mem str = 0 then [str] else str :: terminalWriteReads mem turns (u32 (str + 1))

/-- However long the loop runs, it reads in the buffer, and what was written there. -/
def PrintCall.Safe (call : PrintCall) : Prop :=
  ∀ turns, ∀ a ∈ terminalWriteReads call.mem turns call.str,
    (call.str ≤ a ∧ a < call.str + call.size) ∧ a ∈ call.written

/-! ### The calls -/

/-- The addresses `strncpy` writes, as they show in memory after it: a string and its zero. -/
def copiedTo (mem : Memory) (dst size : Nat) : List Nat :=
  (List.range ((stringAt mem dst (size - 1)).length + 1)).map fun i => dst + i

/-- The addresses of a block. -/
def blockAddresses (ptr size : Nat) : List Nat := (List.range size).map fun i => ptr + i

/-- `buf` is the address of the kernel's buffer. -/
def isrSysPrint (A : Allocator H) (pageDirectory buf userSpaceMsgBuf : Nat) : Program Stop (Ram H) PrintCall := do
  let res ← copyStringFromTask A pageDirectory userSpaceMsgBuf buf 1024
  let mem := (← get).mem
  -- the result is not looked at; where it is an error nothing was copied
  return ⟨buf, 1024, mem, if res < 0 then [] else copiedTo mem buf 1024⟩

/-- `isr_sys_print_ext` up to its call of `print`, with the result it will return. -/
def isrSysPrintExtCall (A : Allocator H) (pageDirectory buf : Nat) (sizeRequested : Int) (msgBufAddr : Nat) :
    Program Stop (Ram H) (Int × Option PrintCall) := do
  if sizeRequested ≤ 0 then return (-1, none)
  if sizeRequested < 1025 then
    let res ← copyStringFromTask A pageDirectory msgBufAddr buf sizeRequested
    let mem := (← get).mem
    return (0, some ⟨buf, 1024, mem, if res < 0 then [] else copiedTo mem buf (u32OfInt sizeRequested)⟩)
  if sizeRequested > 0x1000 then return (-2, none)
  let buf ← kzalloc A (u32OfInt sizeRequested)
  if buf = 0 then return (-enomem, none)
  copyChunks A pageDirectory msgBufAddr buf (sizeRequested.toNat + 1) sizeRequested.toNat 0
  -- `kzalloc` has written all of the block
  return (0, some ⟨buf, sizeRequested.toNat, (← get).mem, blockAddresses buf sizeRequested.toNat⟩)

/-- `c` is the address of the character, a local variable. -/
def sysPutchar (item c : Nat) (mem : Memory) : PrintCall := ⟨c, 1, Function.update mem c (UInt8.ofNat item), [c]⟩

/-- What the call prints is what the loop finds. -/
theorem isrSysPrintExt_prints {A : Allocator H} {pageDirectory buf msg : Nat} {n : Int} {r r' : Ram H}
    {out : Int × List UInt8} (h : isrSysPrintExt A pageDirectory buf n msg r = .ok (out, r')) :
    ∃ call r₁, isrSysPrintExtCall A pageDirectory buf n msg r = .ok ((out.1, call), r₁) ∧
      match call with
      | none => out.2 = []
      | some call => terminalWriteFrom call.mem (2 ^ 32) call.str = some out.2 := by
  have hprint : ∀ {str : Nat} {s t : Ram H} {chars : List UInt8}, print str s = .ok (chars, t) →
      terminalWriteFrom s.mem (2 ^ 32) str = some chars := by
    intro str s t chars hrun
    unfold print at hrun
    rw [bind_apply, get_apply] at hrun
    simp only at hrun
    generalize terminalWriteFrom s.mem (2 ^ 32) str = found at hrun ⊢
    cases found with
    | none => cases hrun
    | some found => cases hrun; rfl
  unfold isrSysPrintExt at h
  unfold isrSysPrintExtCall
  by_cases hnone : n ≤ 0
  · rw [if_pos hnone] at h ⊢
    cases h
    exact ⟨none, r, rfl, rfl⟩
  rw [if_neg hnone] at h ⊢
  by_cases hshort : n < 1025
  · rw [if_pos hshort] at h ⊢
    obtain ⟨res, s, hcopy, hrest⟩ := bind_ok.mp h
    obtain ⟨chars, t, hrun, hend⟩ := bind_ok.mp hrest
    cases hend
    exact ⟨some _, s, bind_ok.mpr ⟨res, s, hcopy, rfl⟩, hprint hrun⟩
  rw [if_neg hshort] at h ⊢
  by_cases hlong : n > 0x1000
  · rw [if_pos hlong] at h ⊢
    cases h
    exact ⟨none, r, rfl, rfl⟩
  rw [if_neg hlong] at h ⊢
  obtain ⟨ptr, s, hzalloc, hrest⟩ := bind_ok.mp h
  by_cases hnull : ptr = 0
  · rw [if_pos hnull] at hrest
    cases hrest
    exact ⟨none, _, bind_ok.mpr ⟨ptr, _, hzalloc, by rw [if_pos hnull]; rfl⟩, rfl⟩
  rw [if_neg hnull] at hrest
  obtain ⟨_, t, hchunks, hrest⟩ := bind_ok.mp hrest
  obtain ⟨chars, u, hrun, hend⟩ := bind_ok.mp hrest
  obtain ⟨_, _, _, hend⟩ := bind_ok.mp hend
  cases hend
  refine ⟨some ⟨ptr, n.toNat, t.mem, blockAddresses ptr n.toNat⟩, t, bind_ok.mpr ⟨ptr, s, hzalloc, ?_⟩, hprint hrun⟩
  rw [if_neg hnull]
  exact bind_ok.mpr ⟨_, t, hchunks, rfl⟩

/-! ### When the loop is safe -/

variable {mem : Memory} {str size : Nat} {text : List UInt8} {written : List Nat}

/-- Up to a zero the loop reads a string. -/
theorem terminalWriteReads_stored (hne : ∀ c ∈ text, c ≠ 0) (hstored : Stored mem str (text ++ [0]))
    (hend : str + text.length < 2 ^ 32) (turns : Nat) {a : Nat} (ha : a ∈ terminalWriteReads mem turns str) :
    ∃ i, i ≤ text.length ∧ a = str + i := by
  induction turns generalizing str text with
  | zero => cases ha
  | succ turns ih =>
    unfold terminalWriteReads at ha
    cases text with
    | nil =>
      have hzero : mem str = 0 := hstored 0 (Nat.zero_lt_one)
      rw [if_pos hzero, List.mem_singleton] at ha
      exact ⟨0, Nat.le_refl _, ha⟩
    | cons c rest =>
      have hfirst : mem str = c := hstored 0 (Nat.succ_pos _)
      have hrest : Stored mem (str + 1) (rest ++ [0]) := by
        intro i hi
        have hbyte := hstored (i + 1) (Nat.succ_lt_succ hi)
        rw [Nat.add_assoc, Nat.add_comm 1 i]
        exact hbyte
      rw [List.length_cons] at hend
      rw [if_neg (by rw [hfirst]; exact hne c (List.mem_cons_self ..)), u32_of_lt (by omega)] at ha
      rcases List.mem_cons.mp ha with rfl | ha
      · exact ⟨0, Nat.zero_le _, rfl⟩
      · obtain ⟨i, hi, rfl⟩ := ih (fun d hd => hne d (List.mem_cons_of_mem c hd)) hrest (by omega) ha
        exact ⟨i + 1, by rw [List.length_cons]; omega, by omega⟩

/-- A string in the buffer that was written with its zero is safe to print. -/
theorem PrintCall.safe_of_stored (hne : ∀ c ∈ text, c ≠ 0) (hstored : Stored mem str (text ++ [0]))
    (hlen : text.length < size) (hend : str + size ≤ 2 ^ 32) (hwritten : ∀ i, i ≤ text.length → str + i ∈ written) :
    PrintCall.Safe ⟨str, size, mem, written⟩ := by
  intro turns a ha
  obtain ⟨i, hi, rfl⟩ := terminalWriteReads_stored hne hstored (by omega) turns ha
  exact ⟨by simp only; omega, hwritten i hi⟩

/-- The first byte is always read. -/
theorem PrintCall.Safe.first {call : PrintCall} (h : call.Safe) : call.str ∈ call.written := by
  refine (h 1 call.str ?_).2
  unfold terminalWriteReads
  split <;> exact List.mem_cons_self ..

theorem mem_copiedTo {a dst n : Nat} :
    a ∈ copiedTo mem dst n ↔ dst ≤ a ∧ a ≤ dst + (stringAt mem dst (n - 1)).length := by
  unfold copiedTo
  rw [List.mem_map]
  constructor
  · rintro ⟨i, hi, rfl⟩
    rw [List.mem_range] at hi
    omega
  · exact fun h => ⟨a - dst, List.mem_range.mpr (by omega), by omega⟩

/-- These are the addresses `strncpy` writes. -/
theorem strncpyWrites_copiedTo {dst src n a : Nat} (hn : n ≠ 0) (hapart : dst + n ≤ src ∨ src + n ≤ dst) :
    a ∈ (strncpyWrites ⟨mem, []⟩ dst src n).written ↔ a ∈ copiedTo (strncpy mem dst src n) dst n := by
  have hstring : stringAt (strncpy mem dst src n) dst (n - 1) = stringAt mem src (n - 1) := by
    rw [strncpy_eq hn hapart]
    exact stringAt_store mem dst (fun c hc => stringAt_ne_zero hc) (length_stringAt_le mem src (n - 1))
  rw [mem_copiedTo, hstring]
  unfold strncpyWrites
  rw [if_neg hn, strncpyWritesFrom_eq (by omega), mem_strcpyLiteral_written]
  exact or_iff_right List.not_mem_nil

/-- What `sys_putchar` prints is safe only if it is nothing. -/
theorem sysPutchar_safe_iff (item c : Nat) (mem : Memory) : (sysPutchar item c mem).Safe ↔ UInt8.ofNat item = 0 := by
  unfold sysPutchar
  have hchar : Function.update mem c (UInt8.ofNat item) c = UInt8.ofNat item := Function.update_self ..
  constructor
  · intro h
    by_contra hne
    have hread : u32 (c + 1) ∈ terminalWriteReads (Function.update mem c (UInt8.ofNat item)) 2 c := by
      unfold terminalWriteReads
      rw [hchar, if_neg hne]
      refine List.mem_cons_of_mem _ ?_
      unfold terminalWriteReads
      split <;> exact List.mem_cons_self ..
    obtain ⟨hbounds, _⟩ := h 2 _ hread
    unfold u32 at hbounds
    simp only at hbounds
    omega
  · intro hzero turns a ha
    cases turns with
    | zero => cases ha
    | succ turns =>
      unfold terminalWriteReads at ha
      simp only [hchar, if_pos hzero, List.mem_singleton] at ha
      exact ⟨by simp only; omega, List.mem_singleton.mpr ha⟩

/-! ### Copies to the stack -/

variable {A : Allocator H} {C : Contract A} {r : Ram H} {D : DirectoryBlocks} {entry : Nat → Nat} {chunk buf msg : Nat}

/-- The copy of at most 1024 bytes into the buffer makes it safe exactly when the heap has a
block for it. -/
theorem copy_safe_iff (hvalid : C.Valid r.heap) (hdir : DirectoryInUse C r D chunk) (htables : Tables D entry r.mem)
    (hmsg : msg < 2 ^ 32) (hbuf : ∀ b, buf ≤ b → b < buf + 1024 → C.InUse r b) (hend : buf + 1024 ≤ 2 ^ 32) {n : Nat}
    (h1 : 1 ≤ n) (hn : n ≤ 1024) :
    Ensures (copyStringFromTask A chunk msg buf n) (fun res r' =>
      PrintCall.Safe ⟨buf, 1024, r'.mem, if res < 0 then [] else copiedTo r'.mem buf n⟩ ↔
        nextBlock A n r.heap ≠ 0) r := by
  refine (copyStringFromTask_spec hvalid hdir htables hmsg h1 (by simp only [pagingPageSize]; omega)).mono
    fun res r' hcopy => ?_
  obtain ⟨_, _, ⟨hnull, rfl, _⟩ | ⟨text, rfl, hscratch, hmem, hread⟩⟩ := hcopy
  · rw [if_pos (by decide)]
    exact iff_of_false (fun h => List.not_mem_nil h.first) (not_not_intro hnull)
  · rw [if_neg (by decide)]
    refine iff_of_true ?_ hscratch.not_null
    have hstored : Stored r'.mem buf (text ++ [0]) := by
      rw [hmem]
      exact hscratch.stored h1 (by simp only [pagingPageSize]; omega) (fun b hb1 hb2 => hbuf b hb1 (by omega)) hread _
    have hlen := hread.length
    have hstring : stringAt r'.mem buf (n - 1) = text := stringAt_of_stored hstored hread.nonzero hlen
    refine PrintCall.safe_of_stored hread.nonzero hstored (by omega) hend fun i hi => ?_
    rw [mem_copiedTo, hstring]
    omega

theorem isrSysPrint_safe_iff (hvalid : C.Valid r.heap) (hdir : DirectoryInUse C r D chunk)
    (htables : Tables D entry r.mem) (hmsg : msg < 2 ^ 32) (hbuf : ∀ b, buf ≤ b → b < buf + 1024 → C.InUse r b)
    (hend : buf + 1024 ≤ 2 ^ 32) :
    Ensures (isrSysPrint A chunk buf msg) (fun call _ => call.Safe ↔ nextBlock A 1024 r.heap ≠ 0) r :=
  wp.bind (copy_safe_iff hvalid hdir htables hmsg hbuf hend (by decide) (Nat.le_refl 1024)) fun _ _ hsafe => hsafe

/-! ### Messages of any size -/

/-- A long message is printed from a block that is zero at first. -/
theorem longMessage_safe (hvalid : C.Valid r.heap) (hdir : DirectoryInUse C r D chunk) (htables : Tables D entry r.mem)
    (hmsg : msg < 2 ^ 32) {n : Nat} (h1 : 1024 < n) (hn : n ≤ 0x1000) :
    Ensures (isrSysPrintExtCall A chunk buf n msg) (fun out _ => ∀ call, out.2 = some call → call.Safe) r := by
  have hn32 : u32OfInt (n : Int) = n := by rw [u32OfInt_natCast, u32_of_lt (by omega)]
  unfold isrSysPrintExtCall
  rw [if_neg (by omega), if_neg (by omega), if_neg (by omega), hn32, Int.toNat_natCast]
  refine wp.bind ((wp_kzalloc hvalid n).mono (fun _ _ h => h) fun _ _ => trivial) fun ptr r₁ hzalloc => ?_
  obtain ⟨hvalid₁, hans, hanswer⟩ := hzalloc
  by_cases hnull : ptr = 0
  · rw [if_pos hnull]
    exact fun call heq => by cases heq
  rw [if_neg hnull]
  have htaken := hans.taken hvalid₁
  rw [if_neg hnull] at htaken
  have hroom := hans.room hnull
  have hmem₁ := (hans.resolve_left fun h => hnull h.1).2.2.1
  have hend := (C.placed hvalid₁ (htaken.fresh ptr (List.mem_singleton_self ptr)).2).2.2
  have hptr : ptr + n ≤ 2 ^ 32 := by
    have hroom' : n ≤ C.live r₁.heap ptr * heapBlockSize := hroom
    simp only [heapBaseAddress, heapMaxHeapSize] at hend
    omega
  have hzero : r₁.mem ptr = 0 := by
    rw [hmem₁]
    exact if_pos ⟨Nat.le_refl ptr, by omega⟩
  refine wp.bind ((htaken.copyMessage hdir htables hmsg h1 hn hroom hzero).mono (fun _ _ h => h) fun _ _ => trivial)
    fun _ r₂ hcopy => ?_
  obtain ⟨text, ht, hstored, _⟩ := hcopy
  have hlen := ht.length
  refine fun call heq => ?_
  cases heq
  refine PrintCall.safe_of_stored ht.nonzero hstored (by omega) hptr fun i hi => ?_
  exact List.mem_map.mpr ⟨i, List.mem_range.mpr (by omega), rfl⟩

theorem isrSysPrintExtCall_safe_iff (hvalid : C.Valid r.heap) (hdir : DirectoryInUse C r D chunk)
    (htables : Tables D entry r.mem) (hmsg : msg < 2 ^ 32) (hbuf : ∀ b, buf ≤ b → b < buf + 1024 → C.InUse r b)
    (hend : buf + 1024 ≤ 2 ^ 32) (size : Int) :
    Ensures (isrSysPrintExtCall A chunk buf size msg) (fun out _ => (∀ call, out.2 = some call → call.Safe) ↔
      size ≤ 0 ∨ 1024 < size ∨ nextBlock A size.toNat r.heap ≠ 0) r := by
  by_cases hnone : size ≤ 0
  · unfold isrSysPrintExtCall
    rw [if_pos hnone]
    exact iff_of_true (fun call heq => by cases heq) (.inl hnone)
  obtain ⟨n, rfl⟩ := Int.eq_ofNat_of_zero_le (show 0 ≤ size by omega)
  by_cases hshort : n ≤ 1024
  · have hn32 : u32OfInt (n : Int) = n := by rw [u32OfInt_natCast, u32_of_lt (by omega)]
    unfold isrSysPrintExtCall
    rw [if_neg hnone, if_pos (by omega), or_iff_right hnone, or_iff_right (by omega), hn32, Int.toNat_natCast]
    refine wp.bind (copy_safe_iff hvalid hdir htables hmsg hbuf hend (by omega) hshort) fun res r' hsafe => ?_
    rw [← hsafe]
    exact ⟨fun h => h _ rfl, fun h call heq => by cases heq; exact h⟩
  · by_cases hlong : n ≤ 0x1000
    · refine (longMessage_safe hvalid hdir htables hmsg (by omega) hlong).mono fun out _ hsafe => ?_
      exact iff_of_true hsafe (.inr (.inl (by omega)))
    · unfold isrSysPrintExtCall
      rw [if_neg hnone, if_neg (by omega), if_pos (by omega)]
      exact iff_of_true (fun call heq => by cases heq) (.inr (.inl (by omega)))

/-- **Printing reads only what the call wrote into its buffer exactly when** the heap has a block
for the copy of a message that goes to the stack, and the single character of `sys_putchar`
is the zero; a longer message and one of a refused size are always safe. -/
theorem printing_safe_iff (hvalid : C.Valid r.heap) (hdir : DirectoryInUse C r D chunk) (htables : Tables D entry r.mem)
    (hmsg : msg < 2 ^ 32) (hbuf : ∀ b, buf ≤ b → b < buf + 1024 → C.InUse r b) (hend : buf + 1024 ≤ 2 ^ 32) :
    Ensures (isrSysPrint A chunk buf msg) (fun call _ => call.Safe ↔ nextBlock A 1024 r.heap ≠ 0) r ∧
    (∀ size : Int, Ensures (isrSysPrintExtCall A chunk buf size msg) (fun out _ =>
      (∀ call, out.2 = some call → call.Safe) ↔ size ≤ 0 ∨ 1024 < size ∨ nextBlock A size.toNat r.heap ≠ 0) r) ∧
    ∀ item c mem, (sysPutchar item c mem).Safe ↔ UInt8.ofNat item = 0 :=
  ⟨isrSysPrint_safe_iff hvalid hdir htables hmsg hbuf hend,
    isrSysPrintExtCall_safe_iff hvalid hdir htables hmsg hbuf hend, sysPutchar_safe_iff⟩

/-- A letter and its zero. -/
theorem printing_safe_letter : ∃ call r', isrSysPrint ladder.orNull 0x1FF000 0x180000 0x900000 (letterRam openEntry) =
    .ok (call, r') ∧ call.Safe := by
  have htables := letterRam_tables fun _ => openEntry_lt
  have hdir : DirectoryInUse ladderContract.orNull (letterRam openEntry) lowDirectory 0x1FF000 :=
    flatMemory_inUse _ _ _ _
  have hbuf : ∀ b, 0x180000 ≤ b → b < 0x180000 + 1024 → ladderContract.orNull.InUse (letterRam openEntry) b :=
    fun b h1 h2 => .inl (by simp only [heapBaseAddress]; omega)
  obtain ⟨hprint, _⟩ := printing_safe_iff (C := ladderContract.orNull) (r := letterRam openEntry) ladder_sound hdir
    htables (show 0x900000 < 2 ^ 32 by decide) hbuf (by decide)
  have hreturns : wp (copyStringFromTask ladder.orNull 0x1FF000 0x900000 0x180000 (1024 : Nat)) (fun _ _ => True)
      (fun _ => False) (letterRam openEntry) := by
    refine (wp_copyStringFromTask (C := ladderContract.orNull) (r := letterRam openEntry) ladder_sound hdir htables
      (by decide) (by decide) (by decide)).mono (fun _ _ _ => trivial) fun _ hstopped => ?_
    rcases hstopped with hnone | ⟨_, hunread⟩
    · exact ladderContract.orNull_answers _ _ _ ladder_sound rfl hnone
    · obtain ⟨text, hfound⟩ := exists_readBy (fun t => foundByte lowDirectory (letterRam openEntry).mem
        (nextBlock ladder.orNull 1024 (letterRam openEntry).heap) 1024 t (u32 (0x900000 + t.length))) 1023
      obtain ⟨i, _, _, habsent⟩ := hunread text hfound
      refine habsent ?_
      obtain ⟨⟨_, hentry⟩, _⟩ := openEntry_view htables (u32_lt (0x900000 + i))
      rwa [(htables.pageEntry (u32_lt _)).2] at hentry
  obtain ⟨res, r', hrun, _⟩ := hreturns.returns
  have hcall : ∃ call, isrSysPrint ladder.orNull 0x1FF000 0x180000 0x900000 (letterRam openEntry) = .ok (call, r') :=
    ⟨_, bind_ok.mpr ⟨res, r', hrun, rfl⟩⟩
  obtain ⟨call, hcall⟩ := hcall
  exact ⟨call, r', hcall, (hprint.returned hcall).mpr (by decide)⟩

/-- **A letter printed by `sys_putchar` is read beyond its only byte.** -/
theorem sysPutchar_reads_on : ¬ ∀ (item c : Nat) (mem : Memory), (sysPutchar item c mem).Safe := by
  intro h
  exact absurd ((sysPutchar_safe_iff 0x41 0 fun _ => 0).mp (h 0x41 0 fun _ => 0)) (by decide)

end BasicOS

import BasicOS.Task.CopyString

/-! Printing a message of a task, `isr_sys_print_ext`.

A message of up to 1024 bytes is copied into a buffer of the kernel's stack, a longer one in
chunks of 1024 bytes into a block of the heap. Every chunk is copied as a string, with a zero
behind it, so the text in the block ends with the first chunk: of a longer message 1023
characters are printed (`isrSysPrintExt_iff`). -/
namespace BasicOS
open Lib Program

variable {H : Type}

/-! ### The calls -/

/-- The loop of `terminal_write` with the turns left: the characters given to `terminal_puts`. -/
def terminalWriteFrom (mem : Memory) : Nat → Nat → Option (List UInt8)
  | 0, _ => none
  | turns + 1, str => if mem str = 0 then some [] else (mem str :: ·) <$> terminalWriteFrom mem turns (u32 (str + 1))

/-- The counter of the loop comes around after as many characters as there are addresses. -/
def print (str : Nat) : Program Stop (Ram H) (List UInt8) := do
  match terminalWriteFrom (← get).mem (2 ^ 32) str with
  | some chars => return chars
  | none => stop .diverges

/-- The loop over the chunks with the turns left. -/
def copyChunks (A : Allocator H) (pageDirectory msgBufAddr buf : Nat) : Nat → Nat → Nat → Program Stop (Ram H) Unit
  | 0, _, _ => stop .diverges
  | turns + 1, sizeRequested, ctr => do
    if sizeRequested = 0 then return ()
    if sizeRequested < 1024 then
      let _ ← copyStringFromTask A pageDirectory (u32 (msgBufAddr + ctr)) (u32 (buf + ctr)) sizeRequested
      copyChunks A pageDirectory msgBufAddr buf turns 0 (u32 (ctr + 1024))
    else
      let _ ← copyStringFromTask A pageDirectory (u32 (msgBufAddr + ctr)) (u32 (buf + ctr)) 1024
      copyChunks A pageDirectory msgBufAddr buf turns (sizeRequested - 1024) (u32 (ctr + 1024))

/-- `sizeRequested` and `msgBufAddr` are what the task left on its stack, `buf` is the address
of the kernel's own buffer. With the result the characters printed. -/
def isrSysPrintExt (A : Allocator H) (pageDirectory buf : Nat) (sizeRequested : Int) (msgBufAddr : Nat) :
    Program Stop (Ram H) (Int × List UInt8) := do
  if sizeRequested ≤ 0 then return (-1, [])
  if sizeRequested < 1025 then
    let _ ← copyStringFromTask A pageDirectory msgBufAddr buf sizeRequested
    return (0, ← print buf)
  if sizeRequested > 0x1000 then return (-2, [])
  let buf ← kzalloc A (u32OfInt sizeRequested)
  if buf = 0 then return (-enomem, [])
  copyChunks A pageDirectory msgBufAddr buf (sizeRequested.toNat + 1) sizeRequested.toNat 0
  let printed ← print buf
  kfree A buf
  return (0, printed)

/-! ### What `print` prints -/

variable {mem : Memory} {n a : Nat} {text : List UInt8}

theorem terminalWriteFrom_eq_some (ha : a < 2 ^ 32) : terminalWriteFrom mem n a = some text ↔
    text.length < n ∧ ReadBy (fun t => mem (u32 (a + t.length))) n text := by
  induction n generalizing a text with
  | zero => exact ⟨fun h => (nomatch h), fun h => absurd h.1 (Nat.not_lt_zero _)⟩
  | succ n ih =>
    have hfirst : mem (u32 (a + ([] : List UInt8).length)) = mem a := by rw [List.length_nil, Nat.add_zero, u32_of_lt ha]
    have hrest : (fun t : List UInt8 => mem (u32 (a + (mem a :: t).length))) =
        fun t => mem (u32 (u32 (a + 1) + t.length)) := by
      funext t
      unfold u32
      rw [List.length_cons, Nat.mod_add_mod, Nat.add_assoc, Nat.add_comm 1]
    unfold terminalWriteFrom
    by_cases hzero : mem a = 0
    · rw [if_pos hzero]
      constructor
      · intro h
        rw [← Option.some_inj.mp h]
        exact ⟨Nat.succ_pos n, readBy_nil fun _ => hfirst.trans hzero⟩
      · intro h
        rw [h.2.eq_nil (Nat.succ_pos n) (hfirst.trans hzero)]
    · rw [if_neg hzero, Option.map_eq_map, Option.map_eq_some_iff]
      constructor
      · rintro ⟨rest, hwrite, rfl⟩
        obtain ⟨hlen, hread⟩ := (ih (u32_lt _)).mp hwrite
        exact ⟨Nat.succ_lt_succ hlen, readBy_cons hzero hfirst (hrest ▸ hread)⟩
      · rintro ⟨hlen, hread⟩
        obtain ⟨rest, rfl, htail⟩ := hread.uncons hfirst hzero
        exact ⟨rest, (ih (u32_lt _)).mpr ⟨Nat.lt_of_succ_lt_succ hlen, hrest ▸ htail⟩, rfl⟩

theorem readBy_stored_iff (hend : a + text.length < 2 ^ 32) (hn : text.length < n) :
    ReadBy (fun t => mem (u32 (a + t.length))) n text ↔ (∀ c ∈ text, c ≠ 0) ∧ Stored mem a (text ++ [0]) := by
  have haddr : ∀ k, k ≤ text.length → u32 (a + (text.take k).length) = a + k := by
    intro k hk
    rw [List.length_take, Nat.min_eq_left hk, u32_of_lt (by omega)]
  constructor
  · refine fun h => ⟨h.nonzero, fun k hk => ?_⟩
    have hle : k ≤ text.length := by
      rw [List.length_append, List.length_singleton] at hk
      omega
    have hread := h.read k (by omega) hle
    rwa [haddr k hle, ← getD_terminated] at hread
  · rintro ⟨hne, hstored⟩
    refine ⟨Nat.le_of_lt hn, hne, fun k _ hle => ?_⟩
    rw [haddr k hle, ← getD_terminated]
    refine hstored k ?_
    rw [List.length_append, List.length_singleton]
    omega

/-- What is printed is the string stored at the address. -/
theorem print_iff {r r' : Ram H} (hend : a + text.length < 2 ^ 32) :
    print a r = .ok (text, r') ↔ r' = r ∧ (∀ c ∈ text, c ≠ 0) ∧ Stored r.mem a (text ++ [0]) := by
  have hread : _ ↔ (∀ c ∈ text, c ≠ 0) ∧ Stored r.mem a (text ++ [0]) := readBy_stored_iff hend (n := 2 ^ 32) (by omega)
  rw [← hread]
  have hwrite : terminalWriteFrom r.mem (2 ^ 32) a = some text ↔ _ := terminalWriteFrom_eq_some (by omega)
  unfold print
  rw [bind_apply, get_apply]
  simp only
  generalize terminalWriteFrom r.mem (2 ^ 32) a = chars at hwrite ⊢
  cases chars with
  | none => exact ⟨fun h => (nomatch h), fun h => (nomatch hwrite.mpr ⟨by omega, h.2⟩)⟩
  | some chars =>
    constructor
    · intro h
      cases h
      exact ⟨rfl, (hwrite.mp rfl).2⟩
    · rintro ⟨rfl, h⟩
      obtain rfl : chars = text := Option.some_inj.mp (hwrite.mpr ⟨by omega, h⟩)
      rfl

/-- The text may be what is printed of a message of that size. -/
structure IsText (n : Nat) (text : List UInt8) : Prop where
  nonzero : ∀ c ∈ text, c ≠ 0
  length : text.length < n

theorem wp_print {r : Ram H} (hend : a + n ≤ 2 ^ 32) :
    wp (print a) (fun chars _ => ∀ text, IsText n text → (chars = text ↔ Stored r.mem a (text ++ [0])))
      (fun _ => ∀ text, IsText n text → ¬ Stored r.mem a (text ++ [0])) r := by
  have hprints : ∀ text, IsText n text → Stored r.mem a (text ++ [0]) → print a r = .ok (text, r) :=
    fun text ht hstored =>
    (print_iff (by have := ht.length; omega)).mpr ⟨rfl, ht.nonzero, hstored⟩
  unfold wp
  cases hrun : print a r with
  | error e =>
    refine fun text ht hstored => ?_
    rw [hprints text ht hstored] at hrun
    cases hrun
  | ok out =>
    refine fun text ht => ⟨fun heq => ?_, fun hstored => ?_⟩
    · have hlen := ht.length
      obtain ⟨chars, r'⟩ := out
      obtain rfl : chars = text := heq
      exact ((print_iff (by omega)).mp hrun).2.2
    · rw [hprints text ht hstored] at hrun
      cases hrun
      rfl

/-! ### The chunks -/

variable {A : Allocator H} {C : Contract A} {r r₀ : Ram H} {D : DirectoryBlocks} {entry : Nat → Nat}
  {chunk buf msg size ctr k : Nat}

/-- Byte `i` of the message is in no page. -/
abbrev PageAbsent (entry : Nat → Nat) (msg i : Nat) : Prop := entry (u32 (msg + i) / pagingPageSize) % 2 ≠ 1

theorem u32_add_u32 (a b c : Nat) : u32 (u32 (a + b) + c) = u32 (a + (b + c)) := by
  unfold u32
  rw [Nat.mod_add_mod, Nat.add_assoc]

/-- A chunk copied into the block: the text found is there, and what was copied before is kept. -/
theorem Taken.copyChunk (h : Taken C r₀ r [buf]) (msg ctr : Nat) (hdir : DirectoryInUse C r₀ D chunk)
    (htables : Tables D entry r₀.mem)
    (h1 : 1 ≤ k) (hk : k ≤ 1024) (hroom : ctr + k ≤ C.pages r buf * heapBlockSize) :
    wp (copyStringFromTask A chunk (u32 (msg + ctr)) (u32 (buf + ctr)) k) (fun _ r' => Taken C r₀ r' [buf] ∧
      C.live r'.heap = C.live r.heap ∧ (∀ b, buf ≤ b → b < buf + ctr → r'.mem b = r.mem b) ∧
      if nextBlock A k r.heap = 0 then r'.mem = r.mem else ∃ text,
        FoundText D r.mem (nextBlock A k r.heap) k (u32 (msg + ctr)) text ∧ Stored r'.mem (buf + ctr) (text ++ [0]))
      (fun _ => A.kmalloc k r.heap = none ∨ (nextBlock A k r.heap ≠ 0 ∧
        ∀ text, FoundText D r.mem (nextBlock A k r.heap) k (u32 (msg + ctr)) text →
          ∃ i, i < k - 1 ∧ i ≤ text.length ∧ PageAbsent entry (u32 (msg + ctr)) i)) r := by
  have hlive := (h.fresh buf (List.mem_singleton_self buf)).2
  obtain ⟨_, _, hend⟩ := C.placed h.valid hlive
  have haddr : u32 (buf + ctr) = buf + ctr := by
    have hroom' : ctr + k ≤ C.live r.heap buf * heapBlockSize := hroom
    refine u32_of_lt ?_
    simp only [heapBaseAddress, heapMaxHeapSize] at hend
    omega
  have hblock : ∀ b, buf ≤ b → b < buf + ctr + k → (C.block r buf).Holds b := by
    intro b h1 h2
    unfold Contract.block
    rw [Extent.holds_mk]
    omega
  rw [haddr]
  refine (wp_copyStringFromTask_inUse h.valid (hdir.taken h) (hdir.tables_taken h htables) (u32_lt _) h1
    (by simp only [pagingPageSize]; omega) fun b hb1 hb2 => .inr ⟨buf, hlive, hblock b (by omega) hb2⟩).mono
    (fun _ r' hcopy => ?_) fun _ hstopped => hstopped
  obtain ⟨hvalid, hlive', hmem, htext⟩ := hcopy
  refine ⟨h.congr hvalid hlive' fun b hb => ?_, hlive', fun b h1 h2 => ?_, htext⟩
  · refine hmem b (h.still_inUse hb) fun hin => ?_
    rw [Extent.holds_mk] at hin
    exact h.not_inUse (List.mem_singleton_self buf) (hblock b (by omega) (by omega)) hb
  · refine hmem b (.inr ⟨buf, hlive, hblock b h1 (by omega)⟩) fun hin => ?_
    rw [Extent.holds_mk] at hin
    omega

/-- An allocator that answers requests answers those of a later state with the same blocks. -/
theorem Contract.Answers.of_live {heap heap' : H} (h : C.Answers heap size) (hlive : C.live heap' = C.live heap) :
    C.Answers heap' size := fun h' hvalid hlive' => h h' hvalid (hlive'.trans hlive)

/-- **The rest of the chunks** leave what was copied before them. -/
theorem Taken.copyChunks (h : Taken C r₀ r [buf]) (hdir : DirectoryInUse C r₀ D chunk) (htables : Tables D entry r₀.mem)
    {turns : Nat} (hturns : size < turns)
    (hroom : size ≠ 0 → ctr + size ≤ C.pages r buf * heapBlockSize ∧ ctr + size ≤ 0x1000) :
    wp (copyChunks A chunk msg buf turns size ctr) (fun _ r' => Taken C r₀ r' [buf] ∧ C.live r'.heap = C.live r.heap ∧
      ∀ b, buf ≤ b → b < buf + ctr → r'.mem b = r.mem b)
      (fun _ => (∃ k, 1 ≤ k ∧ k ≤ 1024 ∧ ¬ C.Answers r.heap k) ∨ ∃ i, ctr ≤ i ∧ i < ctr + size ∧ PageAbsent entry msg i) r := by
  induction turns generalizing size ctr r with
  | zero => exact absurd hturns (Nat.not_lt_zero _)
  | succ turns ih =>
    unfold BasicOS.copyChunks
    by_cases hsize : size = 0
    · rw [if_pos hsize]
      exact ⟨h, rfl, fun _ _ _ => rfl⟩
    rw [if_neg hsize]
    obtain ⟨hpages, hctr⟩ := hroom hsize
    have hnext : u32 (ctr + 1024) = ctr + 1024 := u32_of_lt (by omega)
    -- a chunk of `k` bytes, and the `rest` after it
    have hstep : ∀ k rest, 1 ≤ k → k ≤ 1024 → k + rest = size → (rest = 0 ∨ k = 1024) →
        wp (do
          let _ ← copyStringFromTask A chunk (u32 (msg + ctr)) (u32 (buf + ctr)) k
          BasicOS.copyChunks A chunk msg buf turns rest (ctr + 1024)) (fun _ r' => Taken C r₀ r' [buf] ∧
          C.live r'.heap = C.live r.heap ∧ ∀ b, buf ≤ b → b < buf + ctr → r'.mem b = r.mem b)
          (fun _ => (∃ k, 1 ≤ k ∧ k ≤ 1024 ∧ ¬ C.Answers r.heap k) ∨
            ∃ i, ctr ≤ i ∧ i < ctr + size ∧ PageAbsent entry msg i) r := by
      intro k rest h1 hk hsplit hrest
      refine (wp_bind _ _).mpr ((h.copyChunk msg ctr hdir htables h1 hk (by omega)).mono (fun _ r' hcopy => ?_)
        fun _ hstopped => ?_)
      · obtain ⟨htaken, hlive, hmem, _⟩ := hcopy
        have hsame : C.pages r' buf = C.pages r buf := congrFun hlive buf
        refine (ih htaken (by omega) fun hne => ?_).mono (fun _ r'' hafter => ?_) fun _ hstopped => ?_
        · rw [hsame]
          omega
        · obtain ⟨htaken', hlive', hmem'⟩ := hafter
          exact ⟨htaken', hlive'.trans hlive, fun b h1 h2 => (hmem' b h1 (by omega)).trans (hmem b h1 h2)⟩
        · rcases hstopped with ⟨k', h1', hk', hnot⟩ | ⟨i, hi1, hi2, habsent⟩
          · exact .inl ⟨k', h1', hk', fun ha => hnot (ha.of_live hlive)⟩
          · exact .inr ⟨i, by omega, by omega, habsent⟩
      · rcases hstopped with hnone | ⟨_, hunread⟩
        · exact .inl ⟨k, h1, hk, fun ha => ha r.heap h.valid rfl hnone⟩
        · obtain ⟨text, hfound⟩ := exists_readBy (fun t => foundByte D r.mem (nextBlock A k r.heap) k t
            (u32 (u32 (msg + ctr) + t.length))) (k - 1)
          obtain ⟨i, hi, _, habsent⟩ := hunread text hfound
          rw [PageAbsent, u32_add_u32] at habsent
          exact .inr ⟨ctr + i, by omega, by omega, habsent⟩
    by_cases hlast : size < 1024
    · rw [if_pos hlast, hnext]
      exact hstep size 0 (by omega) (by omega) (by omega) (.inl rfl)
    · rw [if_neg hlast, hnext]
      exact hstep 1024 (size - 1024) (by omega) (by omega) (by omega) (.inr rfl)

/-- **The text in the block is that of the first chunk**, which ends it. -/
theorem Taken.copyMessage {n : Nat} (h : Taken C r₀ r [buf]) (hdir : DirectoryInUse C r₀ D chunk)
    (htables : Tables D entry r₀.mem) (hmsg : msg < 2 ^ 32) (h1 : 1024 < n) (hn : n ≤ 0x1000)
    (hroom : n ≤ C.pages r buf * heapBlockSize) (hzero : r.mem buf = 0) :
    wp (BasicOS.copyChunks A chunk msg buf (n + 1) n 0) (fun _ r' => ∃ text, IsText 1024 text ∧
      Stored r'.mem buf (text ++ [0]) ∧
      if nextBlock A 1024 r.heap = 0 then text = [] else FoundText D r.mem (nextBlock A 1024 r.heap) 1024 msg text)
      (fun _ => (∃ k, 1 ≤ k ∧ k ≤ 1024 ∧ ¬ C.Answers r.heap k) ∨ (nextBlock A 1024 r.heap ≠ 0 ∧
        ∀ text, FoundText D r.mem (nextBlock A 1024 r.heap) 1024 msg text →
          ∃ i, i < 1023 ∧ i ≤ text.length ∧ PageAbsent entry msg i) ∨ ∃ i, 1024 ≤ i ∧ i < n ∧
            PageAbsent entry msg i) r := by
  have hchunk := h.copyChunk msg 0 (k := 1024) hdir htables (by decide) (by decide) (by omega)
  have haddr : u32 (msg + 0) = msg := u32_of_lt hmsg
  unfold BasicOS.copyChunks
  rw [if_neg (by omega), if_neg (by omega), show u32 (0 + 1024) = 1024 from rfl]
  rw [haddr] at hchunk ⊢
  refine (wp_bind _ _).mpr (hchunk.mono (fun _ r₁ hcopy => ?_) fun _ hstopped => ?_)
  · obtain ⟨htaken, hlive, _, hfirst⟩ := hcopy
    have hsame : C.pages r₁ buf = C.pages r buf := congrFun hlive buf
    refine (htaken.copyChunks hdir htables (by omega) fun _ => ?_).mono (fun _ r₂ hrest => ?_) fun _ hstopped => ?_
    · rw [hsame]
      omega
    · obtain ⟨_, _, hkept⟩ := hrest
      -- the other chunks are behind the text and its zero
      have hstored : ∀ text, IsText 1024 text → Stored r₁.mem buf (text ++ [0]) → Stored r₂.mem buf (text ++ [0]) := by
        intro text ht hstored i hi
        have hlen := ht.length
        rw [hkept (buf + i) (by omega) (by rw [List.length_append, List.length_singleton] at hi; omega)]
        exact hstored i hi
      by_cases hnull : nextBlock A 1024 r.heap = 0
      · simp only [if_pos hnull] at hfirst ⊢
        have hnil : IsText 1024 [] := ⟨fun c hc => (List.not_mem_nil hc).elim, by decide⟩
        refine ⟨[], hnil, hstored [] hnil fun i hi => ?_, rfl⟩
        obtain rfl : i = 0 := Nat.lt_one_iff.mp hi
        rw [hfirst]
        exact hzero
      · simp only [if_neg hnull] at hfirst ⊢
        obtain ⟨text, hfound, hcopied⟩ := hfirst
        have ht : IsText 1024 text := ⟨hfound.nonzero, Nat.lt_succ_of_le hfound.length⟩
        exact ⟨text, ht, hstored text ht hcopied, hfound⟩
    · rcases hstopped with ⟨k, hk1, hk, hnot⟩ | ⟨i, hi1, hi2, habsent⟩
      · exact .inl ⟨k, hk1, hk, fun ha => hnot (ha.of_live hlive)⟩
      · exact .inr (.inr ⟨i, hi1, by omega, habsent⟩)
  · rcases hstopped with hnone | hunread
    · exact .inl ⟨1024, by decide, by decide, fun ha => ha r.heap h.valid rfl hnone⟩
    · exact .inr (.inl hunread)

/-! ### The text printed -/

/-- The allocator after a request. -/
def heapAfter (A : Allocator H) (size : Nat) (heap : H) : H := ((A.kmalloc size heap).map Prod.snd).getD heap

/-- What is printed of a message: where the kernel's buffer is filled, the text the copy finds,
and of a longer one the text the first chunk finds while its block is cleared. -/
def Prints (A : Allocator H) (r : Ram H) (D : DirectoryBlocks) (buf n msg : Nat) (text : List UInt8) : Prop :=
  if n ≤ 1024 then
    if nextBlock A n r.heap = 0 then Stored r.mem buf (text ++ [0])
    else FoundText D r.mem (nextBlock A n r.heap) n msg text
  else
    let tmp := nextBlock A 1024 (heapAfter A n r.heap)
    if nextBlock A n r.heap = 0 ∨ tmp = 0 then text = []
    else text.length ≤ 1023 ∧ FoundText D (fill r.mem (nextBlock A n r.heap) n 0) tmp 1024 msg text

/-- The requests of the call are answered. -/
structure PrintAnswered (C : Contract A) (r : Ram H) (n : Nat) : Prop where
  first : C.Answers r.heap n
  chunks : 1024 < n → ∀ k, 1 ≤ k → k ≤ 1024 → C.Answers (heapAfter A n r.heap) k

variable {n : Nat} {text : List UInt8}

theorem wp_print_short (hvalid : C.Valid r.heap) (hdir : DirectoryInUse C r D chunk) (htables : Tables D entry r.mem)
    (hmsg : msg < 2 ^ 32) (h1 : 1 ≤ n) (hn : n ≤ 1024) (hbuf : ∀ b, buf ≤ b → b < buf + 1024 → C.InUse r b)
    (hend : buf + 1024 ≤ 2 ^ 32) :
    wp (isrSysPrintExt A chunk buf n msg) (fun out _ => ∀ text, IsText n text →
      (out.2 = text ↔ Prints A r D buf n msg text))
      (fun _ => ¬ PrintAnswered C r n ∨ ∀ text, IsText n text → Prints A r D buf n msg text →
        ∃ i, i < n ∧ (i ≤ text.length ∨ 1024 ≤ i) ∧ PageAbsent entry msg i) r := by
  unfold isrSysPrintExt
  rw [if_neg (by omega), if_pos (by omega)]
  unfold Prints
  simp only [if_pos hn]
  refine (wp_bind _ _).mpr ((wp_copyStringFromTask_inUse hvalid hdir htables hmsg h1
    (by simp only [pagingPageSize]; omega)
    fun b hb1 hb2 => hbuf b hb1 (by omega)).mono (fun _ r' hcopy => ?_) fun _ hstopped => ?_)
  · obtain ⟨_, _, _, htext⟩ := hcopy
    by_cases hnull : nextBlock A n r.heap = 0
    · simp only [if_pos hnull] at htext ⊢
      rw [wp_bind, ← htext]
      exact (wp_print (n := n) (by omega)).mono (fun _ _ hprinted => hprinted) fun _ hnone =>
        .inr fun text ht hstored => absurd hstored (hnone text ht)
    · simp only [if_neg hnull] at htext ⊢
      obtain ⟨text, hfound, hstored⟩ := htext
      have hlen := hfound.length
      rw [wp_bind, wp_ok ((print_iff (by omega)).mpr ⟨rfl, hfound.nonzero, hstored⟩)]
      exact fun text' _ => ⟨fun heq => heq ▸ hfound, hfound.unique⟩
  · rcases hstopped with hnone | ⟨hnull, hunread⟩
    · exact .inl fun ha => ha.first r.heap hvalid rfl hnone
    · simp only [if_neg hnull]
      refine .inr fun text _ hfound => ?_
      obtain ⟨i, hi, hlen, habsent⟩ := hunread text hfound
      exact ⟨i, by omega, .inl hlen, habsent⟩

theorem heapAfter_answer {ptr : Nat} {heap heap' : H} (h : A.kmalloc n heap = some (ptr, heap')) :
    heapAfter A n heap = heap' := by
  unfold heapAfter
  rw [h]
  rfl

theorem wp_print_long (hvalid : C.Valid r.heap) (hdir : DirectoryInUse C r D chunk) (htables : Tables D entry r.mem)
    (hmsg : msg < 2 ^ 32) (h1 : 1024 < n) (hn : n ≤ 0x1000) :
    wp (isrSysPrintExt A chunk buf n msg) (fun out _ => ∀ text, IsText n text →
      (out.2 = text ↔ Prints A r D buf n msg text))
      (fun _ => ¬ PrintAnswered C r n ∨ ∀ text, IsText n text → Prints A r D buf n msg text →
        ∃ i, i < n ∧ (i ≤ text.length ∨ 1024 ≤ i) ∧ PageAbsent entry msg i) r := by
  have hn32 : u32OfInt (n : Int) = n := by rw [u32OfInt_natCast, u32_of_lt (by omega)]
  unfold isrSysPrintExt
  rw [if_neg (by omega), if_neg (by omega), if_neg (by omega), hn32]
  unfold Prints
  simp only [if_neg (show ¬ n ≤ 1024 by omega)]
  refine (wp_bind _ _).mpr ((wp_kzalloc hvalid n).mono (fun ptr r₁ hzalloc => ?_) fun _ hnone =>
    .inl fun ha => ha.first r.heap hvalid rfl hnone)
  obtain ⟨hvalid₁, hans, hanswer⟩ := hzalloc
  rw [nextBlock_answer hanswer, heapAfter_answer hanswer]
  by_cases hnull : ptr = 0
  · rw [if_pos hnull]
    simp only [hnull, true_or, if_true]
    exact fun text _ => eq_comm
  rw [if_neg hnull]
  have htaken := hans.taken hvalid₁
  rw [if_neg hnull] at htaken
  have hroom := hans.room hnull
  have hmem₁ := (hans.resolve_left fun h => hnull h.1).2.2.1
  rw [← hmem₁]
  have hend := (C.placed hvalid₁ (htaken.fresh ptr (List.mem_singleton_self ptr)).2).2.2
  have hptr : ptr + 1024 ≤ 2 ^ 32 := by
    have hroom' : n ≤ C.live r₁.heap ptr * heapBlockSize := hroom
    simp only [heapBaseAddress, heapMaxHeapSize] at hend
    omega
  have hzero : r₁.mem ptr = 0 := by
    rw [hmem₁]
    exact if_pos ⟨Nat.le_refl ptr, by omega⟩
  refine (wp_bind _ _).mpr ((htaken.copyMessage hdir htables hmsg h1 hn hroom hzero).mono (fun _ r₂ hcopy => ?_)
    fun _ hstopped => ?_)
  · obtain ⟨text, ht, hstored, htext⟩ := hcopy
    have hlen := ht.length
    rw [wp_bind, wp_ok ((print_iff (by omega)).mpr ⟨rfl, ht.nonzero, hstored⟩)]
    intro text' _
    by_cases hnull' : nextBlock A 1024 r₁.heap = 0
    · simp only [hnull', if_true, or_true] at htext ⊢
      rw [htext]
      exact eq_comm
    · simp only [hnull, hnull', or_self, if_false] at htext ⊢
      exact ⟨fun heq => heq ▸ ⟨Nat.le_of_lt_succ hlen, htext⟩, fun hfound => htext.unique hfound.2⟩
  · rcases hstopped with ⟨k, hk1, hk, hnot⟩ | ⟨hnull', hunread⟩ | ⟨i, hi1, hi2, habsent⟩
    · refine .inl fun ha => hnot ?_
      have hchunks := ha.chunks h1 k hk1 hk
      rwa [heapAfter_answer hanswer] at hchunks
    · refine .inr fun text _ hfound => ?_
      simp only [hnull, hnull', or_self, if_false] at hfound
      obtain ⟨i, hi, hlen, habsent⟩ := hunread text hfound.2
      exact ⟨i, by omega, .inl hlen, habsent⟩
    · exact .inr fun text _ _ => ⟨i, hi2, .inr hi1, habsent⟩

theorem wp_isrSysPrintExt (hvalid : C.Valid r.heap) (hdir : DirectoryInUse C r D chunk) (htables : Tables D entry r.mem)
    (hmsg : msg < 2 ^ 32) (h1 : 1 ≤ n) (hn : n ≤ 0x1000) (hbuf : ∀ b, buf ≤ b → b < buf + 1024 → C.InUse r b)
    (hend : buf + 1024 ≤ 2 ^ 32) :
    wp (isrSysPrintExt A chunk buf n msg) (fun out _ => ∀ text, IsText n text →
      (out.2 = text ↔ Prints A r D buf n msg text))
      (fun _ => ¬ PrintAnswered C r n ∨ ∀ text, IsText n text → Prints A r D buf n msg text →
        ∃ i, i < n ∧ (i ≤ text.length ∨ 1024 ≤ i) ∧ PageAbsent entry msg i) r := by
  rcases Nat.lt_or_ge 1024 n with hlong | hshort
  · exact wp_print_long hvalid hdir htables hmsg hlong hn
  · exact wp_print_short hvalid hdir htables hmsg h1 hshort hbuf hend

/-- The call returns where it has a text to print, its requests are answered, and the text and
the later chunks are in pages. -/
theorem isrSysPrintExt_returns (hvalid : C.Valid r.heap) (hdir : DirectoryInUse C r D chunk)
    (htables : Tables D entry r.mem)
    (hmsg : msg < 2 ^ 32) (h1 : 1 ≤ n) (hn : n ≤ 0x1000) (hbuf : ∀ b, buf ≤ b → b < buf + 1024 → C.InUse r b)
    (hend : buf + 1024 ≤ 2 ^ 32) (ht : IsText n text) (hprints : Prints A r D buf n msg text)
    (hanswered : PrintAnswered C r n)
    (hpresent : ∀ i, i < n → (i ≤ text.length ∨ 1024 ≤ i) → Present r.mem D.directory (u32 (msg + i))) :
    ∃ out r', isrSysPrintExt A chunk buf n msg r = .ok (out, r') := by
  have hreturns : wp (isrSysPrintExt A chunk buf n msg) (fun _ _ => True) (fun _ => False) r := by
    refine (wp_isrSysPrintExt hvalid hdir htables hmsg h1 hn hbuf hend).mono (fun _ _ _ => trivial) fun _ hstopped => ?_
    rcases hstopped with hnot | hunread
    · exact hnot hanswered
    · obtain ⟨i, hi, hchunk, habsent⟩ := hunread text ht hprints
      obtain ⟨_, hentry⟩ := hpresent i hi hchunk
      rw [(htables.pageEntry (u32_lt _)).2] at hentry
      exact habsent hentry
  obtain ⟨out, r', hrun, _⟩ := hreturns.returns
  exact ⟨out, r', hrun⟩

/-- Of a long message there is a text that is printed, of 1023 characters at most. -/
theorem exists_prints (A : Allocator H) (r : Ram H) (D : DirectoryBlocks) (buf msg : Nat) (hn : 1024 < n) :
    ∃ text, IsText n text ∧ Prints A r D buf n msg text := by
  unfold Prints
  simp only [if_neg (show ¬ n ≤ 1024 by omega)]
  split
  · exact ⟨[], ⟨fun c hc => (List.not_mem_nil hc).elim, by rw [List.length_nil]; omega⟩, rfl⟩
  · obtain ⟨text, hfound⟩ := exists_readBy (fun t => foundByte D (fill r.mem (nextBlock A n r.heap) n 0)
      (nextBlock A 1024 (heapAfter A n r.heap)) 1024 t (u32 (msg + t.length))) 1023
    have hlen := hfound.length
    exact ⟨text, ⟨hfound.nonzero, by omega⟩, hlen, hfound⟩

theorem Prints.length_le {text : List UInt8} (h : Prints A r D buf n msg text)
    (hn : 1024 < n) : text.length ≤ 1023 := by
  unfold Prints at h
  simp only [if_neg (show ¬ n ≤ 1024 by omega)] at h
  split at h
  · rw [h]
    exact Nat.zero_le _
  · exact h.1

theorem isText_stringAt {mem : Memory} {a : Nat} (h1 : 1 ≤ n) : IsText n (stringAt mem a (n - 1)) := by
  have hlen := length_stringAt_le mem a (n - 1)
  exact ⟨fun c hc => stringAt_ne_zero hc, by omega⟩

/-- **The message is printed just when it is what the copy finds**, and shorter than a chunk
where it is copied in chunks. Then the call returns, if its requests are answered and the
chunks are in pages. -/
theorem isrSysPrintExt_iff (hvalid : C.Valid r.heap) (hdir : DirectoryInUse C r D chunk)
    (htables : Tables D entry r.mem)
    (hmsg : msg < 2 ^ 32) (h1 : 1 ≤ n) (hn : n ≤ 0x1000) (hbuf : ∀ b, buf ≤ b → b < buf + 1024 → C.InUse r b)
    (hend : buf + 1024 ≤ 2 ^ 32) :
    let message := stringAt (userView r.mem D.directory) msg (n - 1)
    (∀ out r', isrSysPrintExt A chunk buf n msg r = .ok (out, r') →
      (out.2 = message ↔ Prints A r D buf n msg message)) ∧
    (Prints A r D buf n msg message → PrintAnswered C r n →
      (∀ i, i < n → (i ≤ message.length ∨ 1024 ≤ i) → Present r.mem D.directory (u32 (msg + i))) →
      ∃ out r', isrSysPrintExt A chunk buf n msg r = .ok (out, r')) :=
  ⟨fun _ _ hrun => (wp_isrSysPrintExt hvalid hdir htables hmsg h1 hn hbuf hend).returned hrun _ (isText_stringAt h1),
    isrSysPrintExt_returns hvalid hdir htables hmsg h1 hn hbuf hend (isText_stringAt h1)⟩

/-! ### A message of one letter, and one of 1024 -/

/-- The letter is printed. -/
theorem isrSysPrintExt_letter : ∃ out r', isrSysPrintExt ladder.orNull 0x1FF000 0x180000 (4 : Nat) 0x900000
    (letterRam openEntry) =
    .ok (out, r') ∧ out.2 = stringAt (userView (letterRam openEntry).mem lowDirectory.directory) 0x900000 3 := by
  have htables := letterRam_tables fun _ => openEntry_lt
  have hdir : DirectoryInUse ladderContract.orNull (letterRam openEntry) lowDirectory 0x1FF000 :=
    flatMemory_inUse _ _ _ _
  obtain ⟨hprints, hreturns⟩ := isrSysPrintExt_iff (n := 4) ladder_sound hdir htables (show 0x900000 < 2 ^ 32 by decide)
    (by decide) (by decide) (fun b h1 h2 => .inl (by simp only [heapBaseAddress]; omega))
    (show 0x180000 + 1024 ≤ 2 ^ 32 by decide)
  have hfound : Prints ladder.orNull (letterRam openEntry) lowDirectory 0x180000 4 0x900000
      (stringAt (userView (letterRam openEntry).mem lowDirectory.directory) 0x900000 3) := by
    have hblock : nextBlock ladder.orNull 4 (letterRam openEntry).heap = nextBlock ladder 4
      (letterRam openEntry).heap := by decide
    have hundisturbed : Undisturbed lowDirectory (letterRam openEntry).mem
      (nextBlock ladder 4 (letterRam openEntry).heap)
        0x900000 4 := openEntry_undisturbed htables (by decide) (by decide) (by decide)
    have hfound := (foundText_iff (m := (letterRam openEntry).mem) (.inr ?_)).mpr hundisturbed
    · unfold Prints
      rw [if_pos (by decide), if_neg (by decide), hblock]
      exact hfound
    · decide
  obtain ⟨out, r', hrun⟩ := hreturns hfound
    ⟨ladderContract.orNull_answers _ _, fun _ _ _ _ => ladderContract.orNull_answers _ _⟩
    fun i _ _ => (openEntry_view htables (u32_lt _)).1
  exact ⟨out, r', hrun, (hprints out r' hrun).mpr hfound⟩

/-- Memory with 1024 letters at 0x900000. -/
def longRam : Ram Ladder := ⟨⟨0, []⟩, flatMemory openEntry fun b => if 0x900000 ≤ b ∧ b < 0x900400 then 65 else 0⟩

theorem longRam_message :
    Stored (userView longRam.mem lowDirectory.directory) 0x900000 (List.replicate 1024 65 ++ [0]) := by
  intro i hi
  rw [List.length_append, List.length_replicate, List.length_singleton] at hi
  have htables : Tables lowDirectory openEntry longRam.mem := flatMemory_tables (fun _ => openEntry_lt) _
  have hplace := (openEntry_view htables (v := 0x900000 + i) (by omega)).2
  unfold userView
  rw [Nat.mod_eq_of_lt (by omega), hplace]
  unfold longRam flatMemory
  simp only
  rw [if_neg (by omega)]
  rcases Nat.lt_or_ge i 1024 with hlt | hge
  · rw [if_pos (by omega), List.getD_append _ _ _ _ (by rwa [List.length_replicate]), List.getD_replicate _ hlt]
  · obtain rfl : i = 1024 := by omega
    rw [if_neg (by omega), List.getD_append_right _ _ _ _ (by rw [List.length_replicate]), List.length_replicate]
    rfl

/-- The last letter is not printed, though there is room for it in a message of 1025 bytes. -/
theorem isrSysPrintExt_truncates : DirectoryInUse ladderContract.orNull longRam lowDirectory 0x1FF000 ∧
    (∀ i, i < 1025 → Present longRam.mem lowDirectory.directory (0x900000 + i)) ∧
    Stored (userView longRam.mem lowDirectory.directory) 0x900000 (List.replicate 1024 65 ++ [0]) ∧
    ∃ out r', isrSysPrintExt ladder.orNull 0x1FF000 0x180000 (1025 : Nat) 0x900000 longRam = .ok (out, r') ∧
      out.2.length ≤ 1023 ∧ out.2 ≠ stringAt (userView longRam.mem lowDirectory.directory) 0x900000 1024 := by
  have htables : Tables lowDirectory openEntry longRam.mem := flatMemory_tables (fun _ => openEntry_lt) _
  have hmessage : stringAt (userView longRam.mem lowDirectory.directory) 0x900000 1024 = List.replicate 1024 65 :=
    stringAt_of_stored longRam_message (fun c hc => by rw [List.eq_of_mem_replicate hc]; decide)
      (by rw [List.length_replicate])
  refine ⟨flatMemory_inUse _ _ _ _, fun i hi => (openEntry_view htables (by omega)).1, longRam_message, ?_⟩
  obtain ⟨text, ht, hprints⟩ := exists_prints ladder.orNull longRam lowDirectory 0x180000 0x900000 (n := 1025)
    (by decide)
  have hbuf : ∀ b, 0x180000 ≤ b → b < 0x180000 + 1024 → ladderContract.orNull.InUse longRam b := fun b h1 h2 =>
    .inl (by simp only [heapBaseAddress]; omega)
  have hdir : DirectoryInUse ladderContract.orNull longRam lowDirectory 0x1FF000 := flatMemory_inUse _ _ _ _
  obtain ⟨out, r', hrun⟩ := isrSysPrintExt_returns (C := ladderContract.orNull)
    (r := longRam) ladder_sound hdir htables (by decide)
    (by decide) (by decide) hbuf (by decide) ht hprints
    ⟨ladderContract.orNull_answers _ _, fun _ _ _ _ => ladderContract.orNull_answers _ _⟩
    fun i _ _ => (openEntry_view htables (u32_lt _)).1
  have hout : out.2 = text := (((wp_isrSysPrintExt (C := ladderContract.orNull)
    (r := longRam) ladder_sound hdir htables (by decide)
    (by decide) (by decide) hbuf (by decide)).returned hrun) text ht).mpr hprints
  have hlen := hprints.length_le (by decide)
  refine ⟨out, r', hrun, hout ▸ hlen, fun heq => ?_⟩
  rw [hout, hmessage] at heq
  rw [heq, List.length_replicate] at hlen
  exact absurd hlen (by decide)

end BasicOS

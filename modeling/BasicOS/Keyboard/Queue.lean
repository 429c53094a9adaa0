import BasicOS.Lib.Ring
import BasicOS.Lib.Run
import BasicOS.Word

/-! The keyboard queue of every process, as `keyboard.c` keeps it.

A key goes to the process with the focus, and a process takes keys from its own queue. The
queue is a ring of 1024 bytes between two counters; a byte that is not zero is a key not yet
taken. `KeyboardRun ok` are the runs of pushes, pops and changes of focus and task; a state
carries what each process was sent and what it has taken.

Nothing looks whether the ring is full: the key after 1024 that were not taken replaces the
oldest and is taken first (`keyboard_overflow_reorders`). Without such a push the queue is
first-in first-out in every state of a run (`keyboard_fifo_without_overflow`). -/
namespace BasicOS
open Lib

abbrev basicOSKeyboardBufferSize : Nat := 0x400

structure KeyboardBuffer where
  buffer : Nat → UInt8
  tail : Int
  head : Int

/-- The queues by the address of their process, the process with the focus, and the process
of the current task. -/
structure Keyboards where
  keyboard : Nat → KeyboardBuffer
  currentProcess : Nat
  taskCurrent : Option Nat

/-! ### The driver -/

def keyboardGetTailIndex (k : KeyboardBuffer) : Nat := u32OfInt k.tail % basicOSKeyboardBufferSize

def KeyboardBuffer.push (k : KeyboardBuffer) (c : UInt8) : KeyboardBuffer where
  buffer := Function.update k.buffer (keyboardGetTailIndex k) c
  tail := s32 (u32OfInt k.tail + 1)
  head := k.head

def KeyboardBuffer.pop (k : KeyboardBuffer) : UInt8 × KeyboardBuffer :=
  let realIdx := u32OfInt k.head % basicOSKeyboardBufferSize
  let c := k.buffer realIdx
  if c = 0x00 then (0, k)
  else (c, ⟨Function.update k.buffer realIdx 0x00, k.tail, s32 (u32OfInt k.head + 1)⟩)

def keyboardPush (s : Keyboards) (c : UInt8) : Keyboards :=
  if s.currentProcess = 0 then s
  else if c = 0x00 then s
  else {s with keyboard := Function.update s.keyboard s.currentProcess ((s.keyboard s.currentProcess).push c)}

def keyboardPop (s : Keyboards) : UInt8 × Keyboards :=
  match s.taskCurrent with
  | none => (0, s)
  | some process =>
    ((s.keyboard process).pop.1,
      {s with keyboard := Function.update s.keyboard process (s.keyboard process).pop.2})

/-! ### Runs -/

/-- The keyboards, with what each process was sent and what it took. -/
structure KeyboardState where
  keyboards : Keyboards
  pushed : Nat → List UInt8
  popped : Nat → List UInt8

inductive KeyboardOp where
  | push (c : UInt8)
  | pop
  | focus (process : Nat)
  | schedule (task : Option Nat)

/-- The keys that arrive: none are zero, and none go to a null process. -/
def KeyboardState.step (s : KeyboardState) : KeyboardOp → KeyboardState
  | .push c =>
    ⟨keyboardPush s.keyboards c,
      if s.keyboards.currentProcess = 0 ∨ c = 0 then s.pushed
      else Function.update s.pushed s.keyboards.currentProcess (s.pushed s.keyboards.currentProcess ++ [c]),
      s.popped⟩
  | .pop =>
    ⟨(keyboardPop s.keyboards).2, s.pushed,
      match s.keyboards.taskCurrent with
      | none => s.popped
      | some process =>
        if (keyboardPop s.keyboards).1 = 0 then s.popped
        else Function.update s.popped process (s.popped process ++ [(keyboardPop s.keyboards).1])⟩
  | .focus process => {s with keyboards := {s.keyboards with currentProcess := process}}
  | .schedule task => {s with keyboards := {s.keyboards with taskCurrent := task}}

/-- The keys sent to a process that it did not take. -/
def KeyboardState.outstanding (s : KeyboardState) (process : Nat) : Nat :=
  (s.pushed process).length - (s.popped process).length

/-- A key is sent only to a process with fewer than 1024 outstanding. -/
def KeyboardState.Room (s : KeyboardState) : KeyboardOp → Prop
  | .push c => s.keyboards.currentProcess ≠ 0 → c ≠ 0 →
    s.outstanding s.keyboards.currentProcess < basicOSKeyboardBufferSize
  | _ => True

/-- No key was sent yet. -/
structure KeyboardState.Fresh (s : KeyboardState) : Prop where
  keyboard : ∀ process, s.keyboards.keyboard process = ⟨fun _ => 0, 0, 0⟩
  pushed : ∀ process, s.pushed process = []
  popped : ∀ process, s.popped process = []

abbrev KeyboardRun (ok : KeyboardState → KeyboardOp → Prop) : KeyboardState → Prop :=
  Run (fun s op t => t = s.step op) ok KeyboardState.Fresh

/-- What a process took are keys it was sent, in their order, each at most once. -/
def KeyboardState.InOrder (s : KeyboardState) (process : Nat) : Prop :=
  (s.popped process).Sublist (s.pushed process)

/-- The next key the process takes is the oldest outstanding, and it takes none only when
none is outstanding. -/
def KeyboardState.TakesOldest (s : KeyboardState) (process : Nat) : Prop :=
  s.keyboards.taskCurrent = some process →
    (keyboardPop s.keyboards).1 = ((s.pushed process).drop (s.popped process).length).headD 0 ∧
      ((keyboardPop s.keyboards).1 = 0 → s.outstanding process = 0)

/-! ### The invariant -/

/-- A queue and its counters hold the keys of one process. -/
structure KeyboardBuffer.Queues (k : KeyboardBuffer) (pushed popped : List UInt8) : Prop where
  head : u32OfInt k.head = popped.length % 2 ^ 32
  tail : u32OfInt k.tail = pushed.length % 2 ^ 32
  keys : ∀ c ∈ pushed, c ≠ 0
  ring : ∃ out, pushed = popped ++ out ∧
    RingHolds basicOSKeyboardBufferSize 0 k.buffer popped.length out

variable {k : KeyboardBuffer} {pushed popped : List UInt8} {s : KeyboardState} {c : UInt8}

/-- A counter that wraps at `2 ^ 32` finds the same cell. -/
theorem index_of_counter {count : Nat} {z : Int} (h : u32OfInt z = count % 2 ^ 32) :
    u32OfInt z % basicOSKeyboardBufferSize = count % basicOSKeyboardBufferSize := by
  rw [h]
  simp only [basicOSKeyboardBufferSize]
  omega

theorem counter_succ {count : Nat} {z : Int} (h : u32OfInt z = count % 2 ^ 32) :
    u32OfInt (s32 (u32OfInt z + 1)) = (count + 1) % 2 ^ 32 := by
  rw [u32OfInt_s32, h]
  unfold u32
  omega

theorem KeyboardBuffer.Queues.push (h : k.Queues pushed popped) (hc : c ≠ 0)
    (hroom : pushed.length - popped.length < basicOSKeyboardBufferSize) :
    (k.push c).Queues (pushed ++ [c]) popped := by
  obtain ⟨out, hout, hring⟩ := h.ring
  have hlen : pushed.length = popped.length + out.length := by rw [hout, List.length_append]
  refine ⟨h.head, ?_, fun d hd => ?_, out ++ [c], ?_, ?_⟩
  · rw [List.length_append, List.length_singleton]
    exact counter_succ h.tail
  · rcases List.mem_append.mp hd with hd | hd
    · exact h.keys d hd
    · rwa [List.mem_singleton.mp hd]
  · rw [hout, List.append_assoc]
  · have hindex : keyboardGetTailIndex k = (popped.length + out.length) % basicOSKeyboardBufferSize := by
      rw [← hlen]
      exact index_of_counter h.tail
    show RingHolds _ _ (Function.update k.buffer (keyboardGetTailIndex k) c) _ _
    rw [hindex]
    exact hring.push (by omega) c

/-- Taking a key from a queue: nothing from an empty one, else its oldest. -/
theorem KeyboardBuffer.Queues.pop (h : k.Queues pushed popped) :
    (pushed = popped ∧ k.pop = (0, k)) ∨
      ∃ c out, c ≠ 0 ∧ pushed = popped ++ c :: out ∧ k.pop.1 = c ∧ k.pop.2.Queues pushed (popped ++ [c]) := by
  obtain ⟨out, hout, hring⟩ := h.ring
  have hindex := index_of_counter h.head
  unfold KeyboardBuffer.pop
  simp only [hindex]
  cases out with
  | nil =>
    refine .inl ⟨by rw [hout, List.append_nil], ?_⟩
    rw [if_pos (hring.empty (by decide))]
  | cons c out =>
    have hc : c ≠ 0 := h.keys c (by rw [hout]; simp)
    have hcell := hring.oldest
    rw [hcell, if_neg hc]
    refine .inr ⟨c, out, hc, hout, rfl, ?_, h.tail, h.keys, out, ?_, ?_⟩
    · rw [List.length_append, List.length_singleton]
      exact counter_succ h.head
    · rw [hout, List.append_assoc]
      rfl
    · rw [List.length_append, List.length_singleton]
      exact hring.pop

def KeyboardState.Queued (s : KeyboardState) : Prop :=
  ∀ process, (s.keyboards.keyboard process).Queues (s.pushed process) (s.popped process)

theorem queued_fresh (h : s.Fresh) : s.Queued := by
  intro process
  rw [h.keyboard, h.pushed, h.popped]
  exact ⟨by decide, by decide, fun c hc => (List.not_mem_nil hc).elim, [], rfl, ringHolds_nil fun i _ => rfl⟩

/-- The keys of the other processes stay as they are. -/
theorem KeyboardState.Queued.update {t : KeyboardState} (process : Nat) (h : s.Queued)
    (hk : ∀ q, q ≠ process → t.keyboards.keyboard q = s.keyboards.keyboard q)
    (hpushed : ∀ q, q ≠ process → t.pushed q = s.pushed q) (hpopped : ∀ q, q ≠ process → t.popped q = s.popped q)
    (hself : (t.keyboards.keyboard process).Queues (t.pushed process) (t.popped process)) : t.Queued := by
  intro q
  by_cases hq : q = process
  · subst hq
    exact hself
  · rw [hk q hq, hpushed q hq, hpopped q hq]
    exact h q

theorem queued_push (h : s.Queued) (hroom : s.Room (.push c)) : (s.step (.push c)).Queued := by
  unfold KeyboardState.step keyboardPush
  by_cases hnull : s.keyboards.currentProcess = 0
  · simp only [if_pos hnull, if_pos (Or.inl hnull : s.keyboards.currentProcess = 0 ∨ c = 0)]
    exact h
  by_cases hc : c = 0
  · simp only [if_neg hnull, if_pos hc, if_pos (Or.inr hc : s.keyboards.currentProcess = 0 ∨ c = 0)]
    exact h
  simp only [if_neg hnull, if_neg hc, if_neg (not_or.mpr ⟨hnull, hc⟩)]
  refine h.update s.keyboards.currentProcess (fun q hq => Function.update_of_ne hq ..)
    (fun q hq => Function.update_of_ne hq ..) (fun q _ => rfl) ?_
  simp only [Function.update_self]
  exact (h _).push hc (hroom hnull hc)

theorem queued_pop (h : s.Queued) : (s.step .pop).Queued := by
  unfold KeyboardState.step keyboardPop
  cases htask : s.keyboards.taskCurrent with
  | none => exact h
  | some process =>
    simp only
    refine h.update process (fun q hq => Function.update_of_ne hq ..) (fun q _ => rfl)
      (fun q hq => ?_) ?_
    · simp only
      split
      · rfl
      · exact Function.update_of_ne hq ..
    · simp only [Function.update_self]
      rcases (h process).pop with ⟨_, hpop⟩ | ⟨c, out, hc, _, hpop, hqueues⟩
      · rw [hpop, if_pos rfl]
        exact h process
      · rw [hpop, if_neg hc, Function.update_self]
        exact hqueues

theorem queued_of_run (hrun : KeyboardRun KeyboardState.Room s) : s.Queued := by
  refine hrun.invariant (fun s hs => queued_fresh hs) fun s op t h hok hstep => ?_
  subst hstep
  cases op with
  | push c => exact queued_push h hok
  | pop => exact queued_pop h
  | focus process => exact h
  | schedule task => exact h

/-- **Without a push to a full queue the keyboard is first-in first-out**: in every state of
such a run each process took, in order, the keys it was sent, and takes the oldest next. -/
theorem keyboard_fifo_without_overflow {s : KeyboardState} (hrun : KeyboardRun KeyboardState.Room s)
    (process : Nat) : s.InOrder process ∧ s.TakesOldest process := by
  have hqueued := queued_of_run hrun
  obtain ⟨out, hout, _⟩ := (hqueued process).ring
  refine ⟨?_, fun htask => ?_⟩
  · unfold KeyboardState.InOrder
    rw [hout]
    exact List.sublist_append_left ..
  · unfold KeyboardState.outstanding keyboardPop
    rw [htask]
    rcases (hqueued process).pop with ⟨heq, hpop⟩ | ⟨c, rest, hc, heq, hpop, _⟩
    · simp only [hpop, heq, List.drop_length, List.headD_nil, Nat.sub_self]
      exact ⟨trivial, fun _ => trivial⟩
    · simp only [hpop, heq, List.drop_left, List.headD_cons]
      exact ⟨trivial, fun h => absurd h hc⟩

/-! ### A full queue -/

/-- The process at `1` has the focus and runs. -/
def oneProcess : KeyboardState := ⟨⟨fun _ => ⟨fun _ => 0, 0, 0⟩, 1, some 1⟩, fun _ => [], fun _ => []⟩

theorem oneProcess_fresh : oneProcess.Fresh := ⟨fun _ => rfl, fun _ => rfl, fun _ => rfl⟩

/-- The process at `1` has the focus and runs. -/
structure KeyboardState.AtOne (s : KeyboardState) : Prop where
  focus : s.keyboards.currentProcess = 1
  task : s.keyboards.taskCurrent = some 1

/-- A key sent to it. -/
theorem KeyboardState.AtOne.push (h : s.AtOne) (hc : c ≠ 0) :
    (s.step (.push c)).AtOne ∧ (s.step (.push c)).keyboards.keyboard 1 = (s.keyboards.keyboard 1).push c ∧
      (s.step (.push c)).pushed 1 = s.pushed 1 ++ [c] ∧ (s.step (.push c)).popped 1 = s.popped 1 := by
  obtain ⟨hfocus, htask⟩ := h
  simp only [KeyboardState.step, keyboardPush, hfocus, if_neg hc, if_neg (show ¬ ((1 : Nat) = 0) by decide),
    if_neg (show ¬ ((1 : Nat) = 0 ∨ c = 0) by simpa using hc), Function.update_self, and_true]
  exact ⟨rfl, htask⟩

/-- A key it takes. -/
theorem KeyboardState.AtOne.pop (h : s.AtOne) (hc : (s.keyboards.keyboard 1).pop.1 = c) (hne : c ≠ 0) :
    (s.step .pop).AtOne ∧ (s.step .pop).keyboards.keyboard 1 = (s.keyboards.keyboard 1).pop.2 ∧
      (s.step .pop).pushed 1 = s.pushed 1 ∧ (s.step .pop).popped 1 = s.popped 1 ++ [c] := by
  obtain ⟨hfocus, htask⟩ := h
  simp only [KeyboardState.step, keyboardPop, htask, hc, if_neg hne, Function.update_self, and_true]
  exact ⟨hfocus, rfl⟩

/-- Two keys are sent and one is taken. -/
theorem keyboard_fifo_two_keys :
    (((oneProcess.step (.push 0x61)).step (.push 0x62)).step .pop).popped 1 = [0x61] ∧
    (((oneProcess.step (.push 0x61)).step (.push 0x62)).step .pop).InOrder 1 ∧
    (((oneProcess.step (.push 0x61)).step (.push 0x62)).step .pop).TakesOldest 1 := by
  obtain ⟨hone₁, hk₁, hpushed₁, hpopped₁⟩ :=
    KeyboardState.AtOne.push (s := oneProcess) (c := 0x61) ⟨rfl, rfl⟩ (by decide)
  obtain ⟨hone₂, hk₂, hpushed₂, hpopped₂⟩ := hone₁.push (c := 0x62) (by decide)
  have hroom : oneProcess.Room (.push 0x61) := fun _ _ => by decide
  have hroom₁ : (oneProcess.step (.push 0x61)).Room (.push 0x62) := fun _ _ => by
    unfold KeyboardState.outstanding
    rw [hone₁.focus, hpushed₁, hpopped₁]
    decide
  obtain ⟨_, _, _, hpopped₃⟩ := hone₂.pop (c := 0x61) (by rw [hk₂, hk₁]; decide) (by decide)
  refine ⟨by rw [hpopped₃, hpopped₂, hpopped₁]; rfl, ?_⟩
  exact keyboard_fifo_without_overflow
    (.step (.step (.step (.start oneProcess_fresh) hroom rfl) hroom₁ rfl)
      (show KeyboardState.Room _ .pop from trivial) rfl) 1

/-- Up to 1024 keys fit. -/
theorem keyboard_filled {n : Nat} (hn : n ≤ basicOSKeyboardBufferSize) :
    ∃ s, KeyboardRun KeyboardState.Room s ∧ s.AtOne ∧ s.pushed 1 = List.replicate n 0x61 ∧ s.popped 1 = [] := by
  induction n with
  | zero => exact ⟨oneProcess, .start oneProcess_fresh, ⟨rfl, rfl⟩, rfl, rfl⟩
  | succ n ih =>
    obtain ⟨s, hrun, hone, hpushed, hpopped⟩ := ih (by omega)
    have hroom : s.Room (.push 0x61) := fun _ _ => by
      unfold KeyboardState.outstanding
      rw [hone.focus, hpushed, hpopped, List.length_replicate]
      exact hn
    obtain ⟨hone', _, hpushed', hpopped'⟩ := hone.push (c := 0x61) (by decide)
    refine ⟨s.step (.push 0x61), .step hrun hroom rfl, hone', ?_, ?_⟩
    · rw [hpushed', hpushed, List.replicate_succ']
    · rw [hpopped', hpopped]

/-- A full ring of one key: another is put in the first cell and taken first. -/
theorem full_queue_reorders {k : KeyboardBuffer}
    (hqueues : k.Queues (List.replicate basicOSKeyboardBufferSize 0x61) []) :
    (k.push 0x62).pop.1 = 0x62 ∧ (k.push 0x62).pop.2.pop.1 = 0x61 := by
  obtain ⟨out, hout, hring⟩ := hqueues.ring
  rw [List.nil_append] at hout
  have hcell : k.buffer 1 = 0x61 := by
    have hheld := hring.held 1 0x61 (by rw [← hout, List.getElem?_replicate, if_pos (by decide)])
    rwa [List.length_nil, Nat.zero_add, Nat.mod_eq_of_lt (by decide)] at hheld
  have htail : keyboardGetTailIndex k = 0 := by
    unfold keyboardGetTailIndex
    rw [hqueues.tail, List.length_replicate]
    decide
  have hhead : u32OfInt k.head = 0 := hqueues.head
  have hhead' : u32OfInt (s32 (0 + 1)) % basicOSKeyboardBufferSize = 1 := by decide
  have hfirst : (k.push 0x62).pop = (0x62, ⟨Function.update (Function.update k.buffer 0 0x62) 0 0,
      (k.push 0x62).tail, s32 (0 + 1)⟩) := by
    simp only [KeyboardBuffer.pop, KeyboardBuffer.push, htail, hhead, Nat.zero_mod, Function.update_self]
    rw [if_neg (by decide)]
  rw [hfirst]
  refine ⟨rfl, ?_⟩
  simp only [KeyboardBuffer.pop, hhead']
  rw [Function.update_of_ne (by decide), Function.update_of_ne (by decide), hcell, if_neg (by decide)]

theorem not_sublist_replicate (n : Nat) :
    ¬ ([0x62, 0x61] : List UInt8).Sublist (List.replicate n 0x61 ++ [0x62]) := by
  induction n with
  | zero => decide
  | succ n ih =>
    rw [List.replicate_succ, List.cons_append, List.cons_sublist_cons']
    rintro (h | ⟨h, _⟩)
    · exact ih h
    · exact absurd h (by decide)

/-- **The key after 1024 overtakes them**: it is taken first, and then the others. -/
theorem keyboard_overflow_reorders :
    ¬ ∀ s, KeyboardRun (fun _ _ => True) s → ∀ process, s.InOrder process := by
  intro h
  obtain ⟨s, hrun, hone, hpushed, hpopped⟩ := keyboard_filled (Nat.le_refl _)
  have hqueues := queued_of_run hrun 1
  rw [hpushed, hpopped] at hqueues
  obtain ⟨hfirst, hsecond⟩ := full_queue_reorders hqueues
  obtain ⟨hone₁, hk₁, hpushed₁, hpopped₁⟩ := hone.push (c := 0x62) (by decide)
  rw [← hk₁] at hfirst hsecond
  obtain ⟨hone₂, hk₂, hpushed₂, hpopped₂⟩ := hone₁.pop hfirst (by decide)
  rw [← hk₂] at hsecond
  obtain ⟨_, _, hpushed₃, hpopped₃⟩ := hone₂.pop hsecond (by decide)
  have hrun₀ : KeyboardRun (fun _ _ => True) s := hrun.mono (fun _ h => h) fun _ _ _ => trivial
  have hrun₃ : KeyboardRun (fun _ _ => True) (((s.step (.push 0x62)).step .pop).step .pop) :=
    .step (.step (.step hrun₀ trivial rfl) trivial rfl) trivial rfl
  have horder := h _ hrun₃ 1
  unfold KeyboardState.InOrder at horder
  rw [hpopped₃, hpopped₂, hpopped₁, hpopped, hpushed₃, hpushed₂, hpushed₁, hpushed] at horder
  exact not_sublist_replicate _ horder

end BasicOS

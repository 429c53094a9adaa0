import BasicOS.Keyboard.Queue
import BasicOS.Stdlib.Readline

/-! The PS/2 driver, from scancodes to the keys a process takes.

A press below 0x80 is looked up in a table of characters; caps lock toggles and the letters follow
it. The key goes to the process that has the focus when it is pressed, while the caps lock is
one for all. `typed` says what a history of scancodes types to a process, and in every run of
interrupts, pops and changes of focus and task in which no queue overflows, a process has taken
the first of the keys typed to it, in their order, and has the others in its queue
(`keyboard_delivers`). What `terminal_readline` returns is then a matter of what was typed
(`readline_typed`).

The table has 82 characters, and the driver looks for one at 82: the byte behind the table. -/
namespace BasicOS
open Lib

/-! ### The driver -/

def keyboardScanSetOne : List UInt8 := [
  0x00, 0x1B, 0x31, 0x32, 0x33, 0x34, 0x35,
  0x36, 0x37, 0x38, 0x39, 0x30, 0x2D, 0x3D,
  0x08, 0x09, 0x51, 0x57, 0x45, 0x52, 0x54,
  0x59, 0x55, 0x49, 0x4F, 0x50, 0x5B, 0x5D,
  0x0D, 0x00, 0x41, 0x53, 0x44, 0x46, 0x47,
  0x48, 0x4A, 0x4B, 0x4C, 0x3B, 0x27, 0x60,
  0x00, 0x5C, 0x5A, 0x58, 0x43, 0x56, 0x42,
  0x4E, 0x4D, 0x2C, 0x2E, 0x2F, 0x00, 0x2A,
  0x00, 0x20, 0x00, 0x00, 0x00, 0x00,
  0x00, 0x00, 0x00, 0x00, 0x00, 0x00,
  0x00, 0x37, 0x38, 0x39, 0x2D, 0x34, 0x35,
  0x36, 0x2B, 0x31, 0x32, 0x33, 0x30, 0x2E]

abbrev keyboardCapsLockOn : Nat := 1

abbrev keyboardCapsLockOff : Nat := 0

abbrev classicKeyboardCapsLockScanCode : UInt8 := 0x3A

abbrev classicKeyboardKeyReleased : UInt8 := 0x80

/-- `classic_keyboard_scancode_to_char`, with `behind` the byte behind the table. -/
def classicKeyboardScancodeToChar (behind : UInt8) (capsLock : Nat) (scancode : UInt8) : UInt8 :=
  if scancode.toNat > keyboardScanSetOne.length then 0x00
  else
    let c := (keyboardScanSetOne ++ [behind]).getD scancode.toNat 0
    if capsLock = keyboardCapsLockOff then if 0x41 ≤ c ∧ c ≤ 0x5A then c + 32 else c else c

/-- The driver's state and the keyboards of the processes. -/
structure Classic where
  capsLock : Nat
  state : KeyboardState

/-- `classic_keyboard_handle_interrupt`, with the byte it reads first. -/
def classicKeyboardHandleInterrupt (behind : UInt8) (s : Classic) (scancode : UInt8) : Classic :=
  if scancode &&& classicKeyboardKeyReleased ≠ 0 then s
  else
    let capsLock :=
      if scancode = classicKeyboardCapsLockScanCode then s.capsLock ^^^ keyboardCapsLockOn else s.capsLock
    let c := classicKeyboardScancodeToChar behind capsLock scancode
    ⟨capsLock, if c ≠ 0 then s.state.step (.push c) else s.state⟩

/-! ### Typing -/

/-- What was pressed or released, and who had the focus. -/
abbrev History := List (Nat × UInt8)

/-- Caps lock behind a history that began with `caps`. -/
def capsBehind (caps : Bool) (history : History) : Bool :=
  history.foldl (fun caps entry => if entry.2 = classicKeyboardCapsLockScanCode then !caps else caps) caps

/-- The character of a key, `none` where it types nothing. -/
def typedKey (behind : UInt8) (caps : Bool) (scancode : UInt8) : Option UInt8 :=
  if 0x80 ≤ scancode then none
  else
    let c := classicKeyboardScancodeToChar behind caps.toNat scancode
    if c = 0 then none else some c

/-- What a history types to a process, the oldest entry first. -/
def typedFrom (behind : UInt8) (process : Nat) : Bool → History → List UInt8
  | _, [] => []
  | caps, (focus, scancode) :: rest =>
    let caps := if scancode = classicKeyboardCapsLockScanCode then !caps else caps
    (if focus = process then (typedKey behind caps scancode).toList else []) ++ typedFrom behind process caps rest

/-- What is typed to a process from the beginning, when caps lock is off. -/
def typed (behind : UInt8) (process : Nat) (history : History) : List UInt8 := typedFrom behind process false history

variable {behind scancode : UInt8} {process : Nat} {history : History}

theorem typedFrom_append (caps : Bool) (h h' : History) :
    typedFrom behind process caps (h ++ h') =
      typedFrom behind process caps h ++ typedFrom behind process (capsBehind caps h) h' := by
  induction h generalizing caps with
  | nil => rfl
  | cons entry h ih =>
    obtain ⟨focus, scancode⟩ := entry
    rw [List.cons_append, typedFrom, typedFrom, ih, List.append_assoc]
    rfl

theorem capsBehind_append (caps : Bool) (h h' : History) :
    capsBehind caps (h ++ h') = capsBehind (capsBehind caps h) h' :=
  List.foldl_append

/-! ### Runs -/

/-- The driver, and what happened at the keyboard. -/
structure Typist where
  classic : Classic
  history : History

inductive TypistOp where
  | interrupt (scancode : UInt8)
  | pop
  | focus (process : Nat)
  | schedule (task : Option Nat)

def Typist.step (behind : UInt8) (s : Typist) : TypistOp → Typist
  | .interrupt scancode =>
    ⟨classicKeyboardHandleInterrupt behind s.classic scancode,
      s.history ++ [(s.classic.state.keyboards.currentProcess, scancode)]⟩
  | .pop => {s with classic.state := s.classic.state.step .pop}
  | .focus process => {s with classic.state := s.classic.state.step (.focus process)}
  | .schedule task => {s with classic.state := s.classic.state.step (.schedule task)}

/-- A key that types something finds room. -/
def Typist.Room (behind : UInt8) (s : Typist) : TypistOp → Prop
  | .interrupt scancode => ∀ c, typedKey behind (capsBehind (capsBehind false s.history)
      [(s.classic.state.keyboards.currentProcess, scancode)]) scancode = some c → s.classic.state.Room (.push c)
  | _ => True

/-- The driver behind `classic_keyboard_init`. -/
structure Typist.Fresh (s : Typist) : Prop where
  capsLock : s.classic.capsLock = keyboardCapsLockOff
  state : s.classic.state.Fresh
  history : s.history = []

abbrev TypistRun (behind : UInt8) (ok : Typist → TypistOp → Prop) : Typist → Prop :=
  Run (fun s op t => t = s.step behind op) ok Typist.Fresh

/-- The driver agrees with the history. -/
structure Typist.Agrees (behind : UInt8) (s : Typist) : Prop where
  capsLock : s.classic.capsLock = (capsBehind false s.history).toNat
  queued : s.classic.state.Queued
  pushed : ∀ process, process ≠ 0 → s.classic.state.pushed process = typed behind process s.history

/-! ### One interrupt -/

theorem released_iff (scancode : UInt8) : scancode &&& classicKeyboardKeyReleased ≠ 0 ↔ 0x80 ≤ scancode := by
  have hbits : ∀ x : BitVec 8, x &&& 0x80#8 ≠ 0#8 ↔ 0x80#8 ≤ x := by decide
  have hscancode := hbits scancode.toBitVec
  rw [ne_eq, ← UInt8.toBitVec_inj] at *
  exact hscancode

theorem caps_xor (caps : Bool) : caps.toNat ^^^ keyboardCapsLockOn = (!caps).toNat := by
  cases caps <;> rfl

/-- An interrupt toggles caps lock as the history says, and pushes the key that is typed. -/
theorem classicKeyboardHandleInterrupt_eq {s : Classic} {caps : Bool} (hcaps : s.capsLock = caps.toNat) (focus : Nat) :
    classicKeyboardHandleInterrupt behind s scancode =
      ⟨(capsBehind caps [(focus, scancode)]).toNat,
        match typedKey behind (capsBehind caps [(focus, scancode)]) scancode with
        | some c => s.state.step (.push c)
        | none => s.state⟩ := by
  have hbehind : capsBehind caps [(focus, scancode)] =
      if scancode = classicKeyboardCapsLockScanCode then !caps else caps := rfl
  unfold classicKeyboardHandleInterrupt typedKey
  by_cases hreleased : 0x80 ≤ scancode
  · have hcode : scancode ≠ classicKeyboardCapsLockScanCode := by
      rintro rfl
      exact absurd hreleased (by decide)
    rw [if_pos ((released_iff scancode).mpr hreleased), if_pos hreleased, hbehind, if_neg hcode, ← hcaps]
  · rw [if_neg fun h => hreleased ((released_iff scancode).mp h), if_neg hreleased, hbehind]
    have hlock : (if scancode = classicKeyboardCapsLockScanCode then s.capsLock ^^^ keyboardCapsLockOn else s.capsLock) =
        (if scancode = classicKeyboardCapsLockScanCode then !caps else caps).toNat := by
      split
      · rw [hcaps, caps_xor]
      · exact hcaps
    simp only [hlock]
    generalize classicKeyboardScancodeToChar behind _ scancode = c
    by_cases hc : c = 0
    · rw [if_neg (not_not.mpr hc), if_pos hc]
    · rw [if_pos hc, if_neg hc]

/-- What one entry types behind a history. -/
theorem typed_snoc (focus : Nat) :
    typed behind process (history ++ [(focus, scancode)]) = typed behind process history ++
      (if focus = process then
        (typedKey behind (capsBehind (capsBehind false history) [(focus, scancode)]) scancode).toList else []) := by
  unfold typed
  rw [typedFrom_append, typedFrom, typedFrom, List.append_nil]
  rfl

theorem typedKey_ne_zero {caps : Bool} {c : UInt8} (h : typedKey behind caps scancode = some c) : c ≠ 0 := by
  unfold typedKey at h
  split at h
  · cases h
  · simp only at h
    split at h
    · cases h
    · rename_i hc
      exact Option.some_inj.mp h ▸ hc

theorem Typist.Agrees.interrupt {s : Typist} (h : s.Agrees behind) (hroom : s.Room behind (.interrupt scancode)) :
    (s.step behind (.interrupt scancode)).Agrees behind := by
  have hstep := @classicKeyboardHandleInterrupt_eq behind scancode _ _ h.capsLock
    s.classic.state.keyboards.currentProcess
  unfold Typist.Room at hroom
  unfold Typist.step
  refine ⟨?_, ?_, fun process hprocess => ?_⟩
  · simp only [hstep, capsBehind_append]
  · simp only [hstep]
    split
    · rename_i c hc
      exact queued_push h.queued (hroom c hc)
    · exact h.queued
  · simp only [hstep, typed_snoc]
    rw [← h.pushed process hprocess]
    generalize hfocus : s.classic.state.keyboards.currentProcess = focus at *
    cases hkey : typedKey behind (capsBehind (capsBehind false s.history) [(focus, scancode)]) scancode with
    | none => simp
    | some c =>
      simp only [KeyboardState.step, hfocus, Option.toList_some]
      by_cases hsame : focus = process
      · subst hsame
        rw [if_neg (not_or.mpr ⟨hprocess, typedKey_ne_zero hkey⟩), Function.update_self, if_pos rfl]
      · rw [if_neg hsame, List.append_nil]
        split
        · rfl
        · exact Function.update_of_ne (Ne.symm hsame) ..

theorem agrees_of_run {s : Typist} (hrun : TypistRun behind (Typist.Room behind) s) : s.Agrees behind := by
  refine hrun.invariant (fun s hs => ?_) fun s op t h hok hstep => ?_
  · refine ⟨?_, queued_fresh hs.state, fun process _ => ?_⟩
    · rw [hs.capsLock, hs.history]
      rfl
    · rw [hs.state.pushed, hs.history]
      rfl
  · subst hstep
    cases op with
    | interrupt scancode => exact h.interrupt hok
    | pop => exact ⟨h.capsLock, queued_pop h.queued, h.pushed⟩
    | focus process => exact ⟨h.capsLock, h.queued, h.pushed⟩
    | schedule task => exact ⟨h.capsLock, h.queued, h.pushed⟩

/-- What a process has taken was typed to it first. -/
theorem popped_begins {s : Typist} (hrun : TypistRun behind (Typist.Room behind) s) (hprocess : process ≠ 0) :
    s.classic.state.popped process <+: typed behind process s.history := by
  have hagrees := agrees_of_run hrun
  obtain ⟨out, hout, _⟩ := (hagrees.queued process).ring
  rw [hagrees.pushed process hprocess] at hout
  exact ⟨out, hout.symm⟩

/-- **The keyboard delivers what is typed.** In every state of a run that overflows no queue, a process has
taken the first of the keys typed while it had the focus, and the next key it takes is the next of
them, or none when it has taken them all. -/
theorem keyboard_delivers {s : Typist} (hrun : TypistRun behind (Typist.Room behind) s) (hprocess : process ≠ 0) :
    s.classic.state.popped process <+: typed behind process s.history ∧
      (s.classic.state.keyboards.taskCurrent = some process →
        (keyboardPop s.classic.state.keyboards).1 =
          ((typed behind process s.history).drop (s.classic.state.popped process).length).headD 0) := by
  have hagrees := agrees_of_run hrun
  have hpushed := hagrees.pushed process hprocess
  refine ⟨popped_begins hrun hprocess, fun htask => ?_⟩
  unfold keyboardPop
  rw [htask]
  rcases (hagrees.queued process).pop with ⟨heq, hpop⟩ | ⟨c, rest, hc, heq, hpop, _⟩
  · rw [hpushed] at heq
    simp only [hpop, ← heq, List.drop_length, List.headD_nil]
  · rw [hpushed] at heq
    simp only [hpop, heq, List.drop_left, List.headD_cons]

/-- The process at 1 has the focus and runs, and nothing was typed. -/
def oneTypist : Typist := ⟨⟨keyboardCapsLockOff, oneProcess⟩, []⟩

theorem oneTypist_fresh : oneTypist.Fresh := ⟨rfl, oneProcess_fresh, rfl⟩

theorem typistRun_interrupt {s : Typist} {scancode : UInt8} (h : TypistRun behind (Typist.Room behind) s)
    (hroom : s.classic.state.outstanding s.classic.state.keyboards.currentProcess < basicOSKeyboardBufferSize) :
    TypistRun behind (Typist.Room behind) (s.step behind (.interrupt scancode)) :=
  .step h (show s.Room behind (.interrupt scancode) from fun _ _ _ _ => hroom) rfl

theorem typistRun_pop {s : Typist} (h : TypistRun behind (Typist.Room behind) s) :
    TypistRun behind (Typist.Room behind) (s.step behind .pop) :=
  .step h (show s.Room behind .pop from trivial) rfl

/-- The keys A, caps lock and B are pressed, and one key is taken. -/
def twoTyped : Typist := [.interrupt 0x1E, .interrupt 0x3A, .interrupt 0x30, .pop].foldl (Typist.step 0) oneTypist

theorem twoTyped_run : TypistRun 0 (Typist.Room 0) twoTyped :=
  typistRun_pop (typistRun_interrupt (typistRun_interrupt (typistRun_interrupt (.start oneTypist_fresh)
    (by decide)) (by decide)) (by decide))

/-- `a` was taken and the next key is `B`. -/
theorem keyboard_delivers_two : twoTyped.classic.state.popped 1 = [0x61] ∧
    twoTyped.classic.state.popped 1 <+: [0x61, 0x42] ∧ (keyboardPop twoTyped.classic.state.keyboards).1 = 0x42 := by
  have hdelivers := keyboard_delivers twoTyped_run (show (1 : Nat) ≠ 0 by decide)
  exact ⟨by decide, hdelivers.1, hdelivers.2 rfl⟩

/-! ### Lines -/

/-- More keys do not change a line that is complete. -/
theorem lineWith_more {edit : List UInt8 → UInt8 → List UInt8} {limit : Nat} {line keys result : List UInt8}
    (h : lineWith edit limit line keys = some result) (more : List UInt8) :
    lineWith edit limit line (keys ++ more) = some result := by
  induction keys generalizing line with
  | nil =>
    rw [lineWith] at h
    split at h
    · cases h
    · rename_i hfull
      cases more with
      | nil => rw [List.append_nil, lineWith, if_neg hfull, h]
      | cons key more => rw [List.nil_append, lineWith, if_neg hfull, h]
  | cons key keys ih =>
    rw [List.cons_append]
    rw [lineWith] at h ⊢
    split at h
    · rename_i hroom
      rw [if_pos hroom]
      split at h
      · rename_i hreturn
        rw [if_pos hreturn, h]
      · rename_i hkey
        rw [if_neg hkey]
        exact ih h
    · rename_i hfull
      rw [if_neg hfull, h]

/-- **What `terminal_readline` returns of what is typed.** A process that has taken some keys calls it, and
it polls. When it returns, the line is made of the keys typed behind those, whatever more is typed;
and it is the line of an editor where the backspaces typed at its beginning are even. While it
waits, the keys polled so far are the first typed behind those, and no line. -/
theorem readline_typed {s : Typist} (hrun : TypistRun behind (Typist.Room behind) s) (hprocess : process ≠ 0)
    {out : Nat} {max : Int} (hmax : 1 ≤ max) (outputWhileTyping : Bool) {taken polled : List UInt8}
    (hpolled : s.classic.state.popped process = taken ++ getkeys polled) (t : Typing) :
    let run := terminalReadline out max outputWhileTyping polled t
    let keys := (typed behind process s.history).drop taken.length
    (∀ n, run.1 = some n → ∃ line, lineWith storeKey (max - 1).toNat [] keys = some line ∧ n = line.length ∧
        Stored run.2.mem out (line ++ [0]) ∧
        (backspacesEven (max - 1).toNat ⟨0, false⟩ (getkeys polled) = true →
          lineWith editLine (max - 1).toNat [] keys = some line)) ∧
      (run.1 = none → getkeys polled <+: keys ∧ lineWith storeKey (max - 1).toNat [] (getkeys polled) = none) := by
  intro run keys
  have hprefix : getkeys polled <+: keys := by
    obtain ⟨rest, hrest⟩ := popped_begins hrun hprocess
    refine ⟨rest, ?_⟩
    show _ = (typed behind process s.history).drop taken.length
    rw [← hrest, hpolled, List.append_assoc, List.drop_left]
  obtain ⟨more, hmore⟩ := hprefix
  have hstart : t.Holds t.mem out (max - 1).toNat [] :=
    ⟨fun i hi => absurd hi (Nat.not_lt_zero i), Nat.zero_le _, SameOutside.refl _ _⟩
  have hreturns : Returns out run (lineWith storeKey (max - 1).toNat [] (getkeys polled)) :=
    (readlineFrom_spec (by omega) hstart).1
  cases hline : lineWith storeKey (max - 1).toNat [] (getkeys polled) with
  | none =>
    rw [hline] at hreturns
    refine ⟨fun n hn => ?_, fun _ => ⟨⟨more, hmore⟩, rfl⟩⟩
    rw [show run.1 = none from hreturns] at hn
    cases hn
  | some line =>
    rw [hline] at hreturns
    obtain ⟨hlength, hstored⟩ := hreturns
    refine ⟨fun n hn => ⟨line, ?_, ?_, hstored, fun heven => ?_⟩, fun hnone => ?_⟩
    · rw [← hmore]
      exact lineWith_more hline more
    · rw [hlength] at hn
      exact (Option.some.inj hn).symm
    · have hedit := (@lineWith_iff (max - 1).toNat [] (getkeys polled) false List.not_mem_nil (Nat.zero_le _)).mpr heven
      rw [← hmore]
      exact lineWith_more (hedit.symm.trans hline) more
    · rw [hlength] at hnone
      cases hnone

/-- Then return is pressed, and the two keys left are taken. -/
def lineTyped : Typist := [.interrupt 0x1C, .pop, .pop].foldl (Typist.step 0) twoTyped

theorem lineTyped_run : TypistRun 0 (Typist.Room 0) lineTyped :=
  typistRun_pop (typistRun_pop (typistRun_interrupt twoTyped_run (by decide)))

/-- The line is `aB`. -/
theorem readline_typed_line : ∃ line, lineWith storeKey 79 [] [0x61, 0x42, 0x0D] = some line ∧ (2 : Int) = line.length ∧
    Stored (terminalReadline 0x400000 80 true [0, 0x61, 0, 0x42, 0x0D] ⟨fun _ => 0, []⟩).2.mem 0x400000 (line ++ [0]) := by
  obtain ⟨line, hline, hlength, hstored, _⟩ := (readline_typed lineTyped_run (show (1 : Nat) ≠ 0 by decide) (by decide)
    true (show lineTyped.classic.state.popped 1 = [] ++ getkeys [0, 0x61, 0, 0x42, 0x0D] by decide) ⟨fun _ => 0, []⟩).1 2
    (show (terminalReadline 0x400000 80 true [0, 0x61, 0, 0x42, 0x0D] ⟨fun _ => 0, []⟩).1 = some 2 from rfl)
  exact ⟨line, hline, hlength, hstored⟩

end BasicOS

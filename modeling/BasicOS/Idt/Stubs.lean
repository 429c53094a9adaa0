import BasicOS.Idt.Gates
import BasicOS.Task.SwitchRoundTrip

/-! The stubs between a program and the kernel's C, as `interrupts.asm` has them.

A stub completes what the processor pushed to a `struct interrupt_frame`, calls the handler with its
address and takes everything back. Whatever interrupts a program, the handler sees the program as it
was, and a handler that returns and leaves the frame alone gives the program back every register
and its flags (`interrupt_transparent`). The wrapper of the system calls does the same but for `eax`,
which carries the number in and the result out (`systemCall_transparent`). -/
namespace BasicOS
open Lib IA32

/-! ### The code -/

/-- The vectors whose stub is made by `interrupt_err`. -/
def errorStub (n : Nat) : Bool :=
  n == 8 || n == 10 || n == 11 || n == 12 || n == 13 || n == 14 || n == 17 || n == 21

/-- `interrupt_err` up to its call, `after` the address behind it. -/
def interruptErr (n after : Nat) : List Op := [.pushad, .plain (.push .esp), .pushImm n, .plain (.call after)]

/-- `interrupt_no_err`, with a code of its own. -/
def interruptNoErr (n after : Nat) : List Op :=
  [.pushImm 0x00, .pushad, .plain (.push .esp), .pushImm n, .plain (.call after)]

def interruptStub (n after : Nat) : List Op := if errorStub n then interruptErr n after else interruptNoErr n after

/-- What both do when the handler has returned, up to the `iret`. -/
def interruptBack : List Op := [.plain (.add .esp 8), .popad, .plain (.add .esp 4)]

/-- `isr80h_wrapper` up to its call. -/
def isr80hWrapper (after : Nat) : List Op :=
  [.cli, .pushImm 0x00, .pushad, .plain (.push .esp), .plain (.push .eax), .plain (.call after)]

/-- `isr80h_wrapper` from there to its `iretd`. -/
def isr80hWrapperBack (tmpRes : Nat) : List Op :=
  [.movTo tmpRes .eax, .plain (.add .esp 8), .popad, .plain (.add .esp 4), .movFrom .eax tmpRes]

/-! ### The frame -/

/-- The `struct interrupt_frame` at an address. -/
def interruptFrameAt (mem : Memory) (a : Nat) : InterruptFrame where
  edi := read32 mem a
  esi := read32 mem (a + 4)
  ebp := read32 mem (a + 8)
  handlerEsp := read32 mem (a + 12)
  ebx := read32 mem (a + 16)
  edx := read32 mem (a + 20)
  ecx := read32 mem (a + 24)
  eax := read32 mem (a + 28)
  errCode := read32 mem (a + 32)
  eip := read32 mem (a + 36)
  cs := read32 mem (a + 40)
  eflags := read32 mem (a + 44)
  esp := read32 mem (a + 48)
  ss := read32 mem (a + 52)

def sizeofInterruptFrame : Nat := 56

/-- The words of a frame, in the order they stand. -/
def InterruptFrame.list (f : InterruptFrame) : List Nat :=
  [f.edi, f.esi, f.ebp, f.handlerEsp, f.ebx, f.edx, f.ecx, f.eax, f.errCode, f.eip, f.cs, f.eflags, f.esp, f.ss]

theorem interruptFrameAt_eq {mem : Memory} {a : Nat} {f : InterruptFrame} (h : WordsFrom mem a f.list) :
    interruptFrameAt mem a = f := by
  obtain ⟨_, _, _, _, _, _, _, _, _, _, _, _, _, _, _⟩ := h
  simp only [Nat.add_assoc, Nat.reduceAdd] at *
  simp only [interruptFrameAt, *]

/-- A frame is the registers of `pushad` and the words of the event. -/
theorem frame_words {mem : Memory} {a : Nat} {f : InterruptFrame} (h : WordsFrom mem a f.list) :
    WordsFrom mem a [f.edi, f.esi, f.ebp, f.handlerEsp, f.ebx, f.edx, f.ecx, f.eax] ∧
      WordsFrom mem (a + 36) [f.eip, f.cs, f.eflags, f.esp, f.ss] := by
  have hsplit : f.list = [f.edi, f.esi, f.ebp, f.handlerEsp, f.ebx, f.edx, f.ecx, f.eax] ++
      [f.errCode, f.eip, f.cs, f.eflags, f.esp, f.ss] := rfl
  rw [hsplit, wordsFrom_append] at h
  exact ⟨h.1, h.2.2⟩

/-- A frame under the three words of a call. -/
theorem frame_over {mem : Memory} {top after n : Nat} {f : InterruptFrame}
    (h : WordsFrom mem (top - 68) (after :: n :: (top - 56) :: f.list)) (htop : 68 ≤ top) :
    WordsFrom mem (top - 68) [after, n, top - 56] ∧ WordsFrom mem (top - 56) f.list := by
  rw [show after :: n :: (top - 56) :: f.list = [after, n, top - 56] ++ f.list from rfl, wordsFrom_append] at h
  refine ⟨h.1, ?_⟩
  have hframe := h.2
  rwa [show top - 68 + 4 * [after, n, top - 56].length = top - 56 by simp only [List.length_cons, List.length_nil]; omega]
    at hframe

/-- What the handler is to see of a program that an event stopped, with the kernel's stack at `top`. -/
def frameOf (c : Cpu) (top : Nat) (e : Event) : InterruptFrame where
  edi := c.reg .edi
  esi := c.reg .esi
  ebp := c.reg .ebp
  handlerEsp := top - 24
  ebx := c.reg .ebx
  edx := c.reg .edx
  ecx := c.reg .ecx
  eax := c.reg .eax
  errCode := e.code.headD 0
  eip := e.savedEip c.eip
  cs := c.cs
  eflags := e.savedFlags c.eflags
  esp := c.reg .esp
  ss := c.ss

/-- What a stub relies on when the C function it called is back: the stack as it left it, and the
frame. -/
structure Returned (called returned : Machine) (frame : Nat) : Prop where
  esp : returned.reg .esp = called.reg .esp + 4
  frame : ∀ b, frame ≤ b → b < frame + sizeofInterruptFrame → returned.mem b = called.mem b

/-- The registers a frame gives back. -/
def InterruptFrame.regs (f : InterruptFrame) : Reg → Nat
  | .eax => f.eax
  | .ecx => f.ecx
  | .edx => f.edx
  | .ebx => f.ebx
  | .esp => f.esp
  | .ebp => f.ebp
  | .esi => f.esi
  | .edi => f.edi

/-- A program that goes on where a frame has it. -/
def InterruptFrame.resume (f : InterruptFrame) (m : Machine) : Cpu where
  reg := f.regs
  seg := m.seg
  eflags := f.eflags
  eip := f.eip
  mem := m.mem
  cs := f.cs
  ss := f.ss

theorem frameOf_resume (c : Cpu) (top : Nat) (e : Event) (m : Machine) :
    (frameOf c top e).resume m =
      {c with seg := m.seg, eflags := e.savedFlags c.eflags, eip := e.savedEip c.eip, mem := m.mem} := by
  simp only [frameOf, InterruptFrame.resume, Cpu.mk.injEq, Machine.mk.injEq, and_true]
  funext r
  cases r <;> rfl

/-! ### Going in -/

/-- The registers, the frame's address, an argument and the return address, on top of what stands at `a`. -/
theorem pushFrame_spec {m : Machine} {a : Nat} {rest : List Nat} (hregs : ∀ r, m.reg r < 2 ^ 32) (hesp : m.reg .esp = a)
    (hroom : 44 ≤ a) (hrest : WordsFrom m.mem a rest) {n after : Nat} (hn : n < 2 ^ 32) (hafter : after < 2 ^ 32) :
    let pushed := m.pushAll m.pushedRegs
    ∃ mem, pushed.pushAll [pushed.reg .esp, n, after] =
        {m with reg := Function.update m.reg .esp (a - 44), mem := mem} ∧
      WordsFrom mem (a - 44) ([after, n, a - 32, m.reg .edi, m.reg .esi, m.reg .ebp, a, m.reg .ebx, m.reg .edx,
        m.reg .ecx, m.reg .eax] ++ rest) ∧ SameOutside ⟨a - 44, 44⟩ m.mem mem := by
  intro pushed
  have ha : a < 2 ^ 32 := hesp ▸ hregs .esp
  have hsized : ∀ w ∈ m.pushedRegs, w < 2 ^ 32 := by
    intro w hw
    simp only [Machine.pushedRegs, List.mem_cons, List.not_mem_nil, or_false] at hw
    rcases hw with rfl | rfl | rfl | rfl | rfl | rfl | rfl | rfl <;> exact hregs _
  have hroom1 : 4 * m.pushedRegs.length ≤ a := by
    simp only [Machine.pushedRegs, List.length_cons, List.length_nil]
    omega
  obtain ⟨mem1, hall1, hat1, hsame1⟩ := pushAll_onto hesp hroom1 ha hsized hrest
  rw [show 4 * m.pushedRegs.length = 32 from rfl] at hall1 hat1 hsame1
  have hpushed : pushed = {m with reg := Function.update m.reg .esp (a - 32), mem := mem1} := hall1
  have hesp1 : pushed.reg .esp = a - 32 := by simp only [hpushed, Function.update_self]
  have hargs : ∀ w ∈ [a - 32, n, after], w < 2 ^ 32 := by
    intro w hw
    simp only [List.mem_cons, List.not_mem_nil, or_false] at hw
    rcases hw with rfl | rfl | rfl
    · omega
    · exact hn
    · exact hafter
  have hroom2 : 4 * [a - 32, n, after].length ≤ a - 32 := by
    simp only [List.length_cons, List.length_nil]
    omega
  obtain ⟨mem, hall, hat, hsame⟩ := pushAll_onto hesp1 hroom2 (by omega) hargs (by rw [hpushed]; exact hat1)
  rw [show 4 * [a - 32, n, after].length = 12 from rfl, Nat.sub_sub] at hall hat hsame
  refine ⟨mem, ?_, ?_, ?_⟩
  · rw [hesp1, hall, hpushed, Function.update_idem]
  · have hstored : m.pushedRegs.reverse = [m.reg .edi, m.reg .esi, m.reg .ebp, a, m.reg .ebx, m.reg .edx, m.reg .ecx,
        m.reg .eax] := by
      rw [Machine.pushedRegs, hesp]
      rfl
    rw [hstored] at hat
    exact hat
  · rw [hpushed] at hsame
    refine (hsame1.mono fun b hb => ?_).trans (hsame.mono fun b hb => ?_) <;>
    · rw [Extent.holds_mk] at hb ⊢
      omega

/-- What an event leaves when it is entered, with a code of the stub's own where it has none. -/
theorem enterCoded_spec {c : Cpu} (hc : c.Sized) {stack : RingStack} {top : Nat} (hstack : stack.esp0 = top)
    (hroom : 24 ≤ top) (htop : top < 2 ^ 32) (gate : Gate) (e : Event) (hcode : ∀ w ∈ e.code, w < 2 ^ 32) :
    let entered := (c.enter stack gate e).toMachine
    let coded := if e.code = [] then entered.pushVal 0 else entered
    ∃ mem, coded = {entered with reg := Function.update c.reg .esp (top - 24), mem := mem} ∧
      WordsFrom mem (top - 24) [e.code.headD 0, e.savedEip c.eip, c.cs, e.savedFlags c.eflags, c.reg .esp, c.ss] ∧
      SameOutside ⟨top - 24, 24⟩ c.mem mem := by
  intro entered coded
  obtain ⟨mem, hentered, hat, hsame⟩ := enter_spec hc hstack hroom htop gate e hcode
  have hmachine : entered =
      {reg := Function.update c.reg .esp (top - 20 - 4 * e.code.length), seg := c.seg,
        eflags := clearedFlags c.eflags, eip := gate.offset, mem := mem} := congrArg Cpu.toMachine hentered
  by_cases hnone : e.code = []
  · have hcoded : coded = entered.pushVal 0 := if_pos hnone
    simp only [hnone, List.length_nil, Nat.mul_zero, Nat.sub_zero, List.nil_append, Nat.add_zero] at hmachine hat hsame
    have hesp : entered.reg .esp = top - 20 := by simp only [hmachine, Function.update_self]
    have hroom' : 4 * [0].length ≤ top - 20 := by
      rw [show 4 * [0].length = 4 from rfl]
      omega
    obtain ⟨mem', hall, hat', hsame'⟩ := pushAll_onto hesp hroom' (by omega) (by simp) (by rw [hmachine]; exact hat)
    rw [show 4 * [0].length = 4 from rfl, Nat.sub_sub] at hall hat' hsame'
    refine ⟨mem', ?_, ?_, ?_⟩
    · rw [hcoded]
      refine Eq.trans hall ?_
      rw [hmachine, Function.update_idem]
    · rw [hnone]
      exact hat'
    · rw [hmachine] at hsame'
      refine (hsame.mono fun b hb => ?_).trans (hsame'.mono fun b hb => ?_) <;>
      · rw [Extent.holds_mk] at hb ⊢
        omega
  · have hcoded : coded = entered := if_neg hnone
    obtain ⟨code, hone⟩ : ∃ code, e.code = [code] := by
      cases e with
      | fault n code =>
        rw [Event.code] at hnone ⊢
        split at hnone
        · rename_i hpushes
          exact ⟨code, if_pos hpushes⟩
        · exact absurd rfl hnone
      | soft n len => exact absurd rfl hnone
      | irq n => exact absurd rfl hnone
    rw [hone, show [code].length = 1 from rfl, Nat.mul_one, Nat.sub_sub] at hmachine hat hsame
    refine ⟨mem, ?_, ?_, hsame⟩
    · rw [hcoded, hmachine]
    · rw [hone]
      exact hat

/-- The handler's stack: the return address, two arguments and the frame. -/
theorem handlerStack_spec {c : Cpu} (hc : c.Sized) {top : Nat} (hroom : 68 ≤ top) (htop : top < 2 ^ 32) {e : Event}
    {m : Machine} (hreg : m.reg = Function.update c.reg .esp (top - 24))
    (hat : WordsFrom m.mem (top - 24)
      [e.code.headD 0, e.savedEip c.eip, c.cs, e.savedFlags c.eflags, c.reg .esp, c.ss])
    (hsame : SameOutside ⟨top - 24, 24⟩ c.mem m.mem) {n after : Nat} (hn : n < 2 ^ 32) (hafter : after < 2 ^ 32) :
    let pushed := m.pushAll m.pushedRegs
    let called := pushed.pushAll [pushed.reg .esp, n, after]
    called.reg .esp = top - 68 ∧ WordsFrom called.mem (top - 68) (after :: n :: (top - 56) :: (frameOf c top e).list) ∧
      SameOutside ⟨top - 68, 68⟩ c.mem called.mem := by
  have hregs : ∀ r, m.reg r < 2 ^ 32 := by
    intro r
    rw [hreg]
    by_cases hr : r = .esp
    · rw [hr, Function.update_self]
      omega
    · rw [Function.update_of_ne hr]
      exact hc.reg r
  have hesp : m.reg .esp = top - 24 := by rw [hreg, Function.update_self]
  have hother : ∀ r, r ≠ .esp → m.reg r = c.reg r := fun r hr => by rw [hreg, Function.update_of_ne hr]
  obtain ⟨mem, hall, hwords, hsame'⟩ := pushFrame_spec hregs hesp (by omega) hat hn hafter
  rw [Nat.sub_sub] at hall hwords hsame'
  rw [Nat.sub_sub, hother .edi (by decide), hother .esi (by decide), hother .ebp (by decide), hother .ebx (by decide),
    hother .edx (by decide), hother .ecx (by decide), hother .eax (by decide)] at hwords
  simp only [hall, Function.update_self, true_and]
  refine ⟨hwords, ?_⟩
  · refine (hsame.mono fun b hb => ?_).trans (hsame'.mono fun b hb => ?_) <;>
    · rw [Extent.holds_mk] at hb ⊢
      omega

/-! ### Coming back -/

/-- The arguments, the registers and the code off the stack again. -/
theorem interruptBack_spec {m : Machine} {top : Nat} {f : InterruptFrame} (hesp : m.reg .esp = top - 64)
    (hroom : 68 ≤ top) (htop : top < 2 ^ 32) (hframe : WordsFrom m.mem (top - 56) f.list) :
    (runOps m interruptBack).reg = Function.update f.regs .esp (top - 20) ∧
      (runOps m interruptBack).seg = m.seg ∧ (runOps m interruptBack).mem = m.mem := by
  have hregisters := (frame_words hframe).1
  have hup : (exec m (.add .esp 8)).reg .esp = top - 56 := by
    simp only [exec, Machine.set, Function.update_self, hesp]
    omega
  have hpopad := popad_spec hup (by omega) hregisters
  unfold interruptBack
  rw [runOps_cons, runOps_cons, runOps_cons, runOps_nil, execOp, execOp, execOp, hpopad]
  refine ⟨?_, rfl, rfl⟩
  simp only [exec, Machine.set]
  rw [show (top - 56 + 32 + 4) % 2 ^ 32 = top - 20 by omega]
  funext r
  cases r <;> rfl

theorem Returned.frame_list {called returned : Machine} {a : Nat} {f : InterruptFrame}
    (h : Returned called returned a) (hframe : WordsFrom called.mem a f.list) : WordsFrom returned.mem a f.list :=
  hframe.congr h.frame

/-- The `iret` behind a handler that has returned. -/
theorem interruptBack_iret {called returned : Machine} {top : Nat} {f : InterruptFrame}
    (hesp : called.reg .esp = top - 68) (hroom : 68 ≤ top) (htop : top < 2 ^ 32)
    (hframe : WordsFrom called.mem (top - 56) f.list) (hreturned : Returned called returned (top - 56))
    (hcs : f.cs < 2 ^ 16) (hss : f.ss < 2 ^ 16) (cs ss : Nat) :
    Cpu.iret ⟨runOps returned interruptBack, cs, ss⟩ = f.resume returned := by
  have hframe' := hreturned.frame_list hframe
  have hesp' : returned.reg .esp = top - 64 := by
    rw [hreturned.esp, hesp]
    omega
  obtain ⟨hreg, hseg, hmem⟩ := interruptBack_spec hesp' hroom htop hframe'
  have hiret := (frame_words hframe').2
  rw [show top - 56 + 36 = top - 20 by omega] at hiret
  have htop' : (runOps returned interruptBack).reg .esp = top - 20 := by rw [hreg, Function.update_self]
  rw [iret_spec (c := ⟨runOps returned interruptBack, cs, ss⟩) htop' (by omega) (by rw [hmem]; exact hiret) hcs hss]
  simp only [InterruptFrame.resume, hreg, hseg, hmem, Function.update_idem]
  congr
  funext r
  cases r <;> rfl

/-! ### There and back -/

/-- The stub's own list of vectors is the processor's. -/
theorem errorStub_eq {e : Event} (he : Possible e) (hcall : e.vector ≠ 0x80) (hseen : seenAs e = e) :
    errorStub e.vector = true ↔ e.code ≠ [] := by
  cases e with
  | fault n code =>
    have hlist : errorStub n = pushesCode n := by
      simp only [errorStub, pushesCode, List.mem_cons, List.not_mem_nil, or_false, Bool.decide_or, Bool.or_assoc]
      rfl
    rw [Event.code, Event.vector, hlist]
    split <;> simp [*]
  | soft n len =>
    simp only [seenAs, ite_eq_left_iff, reduceCtorEq, imp_false, not_not] at hseen
    exact absurd hseen hcall
  | irq n =>
    obtain ⟨hlow, hhigh⟩ := he
    have hno : errorStub n = false := by
      simp only [errorStub, Bool.or_eq_false_iff, beq_eq_false_iff_ne]
      omega
    rw [Event.vector, hno]
    exact iff_of_false Bool.false_ne_true fun h => h rfl

theorem seenAs_idem (e : Event) : seenAs (seenAs e) = seenAs e := by
  cases e with
  | soft n len =>
    by_cases hcall : n = 0x80 <;> simp [seenAs, hcall]
  | fault n code => rfl
  | irq n => rfl

/-- The codes of what the kernel sees are words. -/
theorem Possible.code_lt {e : Event} (he : Possible e) : ∀ w ∈ e.code, w < 2 ^ 32 := by
  cases e with
  | fault n code =>
    intro w hw
    rw [Event.code] at hw
    split at hw
    · rw [List.mem_singleton] at hw
      exact hw ▸ he.2
    · cases hw
  | soft n len => exact fun w hw => by cases hw
  | irq n => exact fun w hw => by cases hw

variable {c : Cpu} {descriptors wrapper after top : Nat} {pointerTable : Nat → Nat} {stack : RingStack}

/-- The stub of an event the kernel sees, from the gate to the call. -/
theorem interruptStub_spec (hc : c.Sized) (hstack : stack.esp0 = top) (hroom : 68 ≤ top) (htop : top < 2 ^ 32)
    (hafter : after < 2 ^ 32) {e : Event} (he : Possible e) (hseen : seenAs e = e) (hcall : e.vector ≠ 0x80)
    (gate : Gate) :
    let called := runOps (c.enter stack gate e).toMachine (interruptStub e.vector after)
    called.reg .esp = top - 68 ∧ WordsFrom called.mem (top - 68) (after :: e.vector :: (top - 56) :: (frameOf c top e).list) ∧
      SameOutside ⟨top - 68, 68⟩ c.mem called.mem := by
  have hvector : e.vector < 2 ^ 32 := Nat.lt_trans (possible_vector he) (by decide)
  have herror := errorStub_eq he hcall hseen
  obtain ⟨mem0, hcoded, hat0, hsame0⟩ := enterCoded_spec hc hstack (by omega) htop gate e he.code_lt
  generalize (c.enter stack gate e).toMachine = entered at *
  have hstub : ∀ m, m = (if e.code = [] then entered.pushVal 0 else entered) →
      runOps entered (interruptStub e.vector after) =
        (m.pushAll m.pushedRegs).pushAll [(m.pushAll m.pushedRegs).reg .esp, e.vector, after] := by
    rintro m rfl
    unfold interruptStub
    by_cases hnone : e.code = []
    · rw [if_neg (fun h => herror.mp h hnone), if_pos hnone]
      rfl
    · rw [if_pos (herror.mpr hnone), if_neg hnone]
      rfl
  rw [hstub _ hcoded.symm]
  exact handlerStack_spec (m := {entered with reg := Function.update c.reg .esp (top - 24), mem := mem0}) hc hroom htop
    rfl hat0 hsame0 hvector hafter

/-- **An interrupt is transparent.** Whatever happens to a program, but for a system call, its stub calls
the handler with the vector and a frame that says what the program was doing; and a handler that
returns and leaves the frame alone gives the program back as it was. Only the kernel's stack is
written on the way in, and nothing on the way out. -/
theorem interrupt_transparent (hc : c.Sized) (hready : IdtReady c.mem descriptors pointerTable wrapper)
    (hstack : stack.esp0 = top) (hroom : 68 ≤ top) (htop : top < 2 ^ 32) (hafter : after < 2 ^ 32) {e : Event}
    (he : Possible e) (hcall : (seenAs e).vector ≠ 0x80) :
    ∃ entered called, c.deliver (idtrDescriptor descriptors) stack e = some (seenAs e, entered) ∧
      entered.eip = pointerTable (seenAs e).vector ∧
      runOps entered.toMachine (interruptStub (seenAs e).vector after) = called ∧
      WordsFrom called.mem (called.reg .esp) [after, (seenAs e).vector, top - 56] ∧
      interruptFrameAt called.mem (top - 56) = frameOf c top (seenAs e) ∧
      SameOutside ⟨top - 68, 68⟩ c.mem called.mem ∧
      ∀ returned, Returned called returned (top - 56) →
        Cpu.iret ⟨runOps returned interruptBack, entered.cs, entered.ss⟩ =
          {c with seg := returned.seg, mem := returned.mem, eflags := (seenAs e).savedFlags c.eflags,
                  eip := (seenAs e).savedEip c.eip} := by
  obtain ⟨hesp, hwords, hsame⟩ := interruptStub_spec hc hstack hroom htop hafter he.seenAs (seenAs_idem e) hcall
    (readyGate pointerTable wrapper (seenAs e).vector)
  obtain ⟨hargs, hframe⟩ := frame_over hwords hroom
  refine ⟨_, _, deliver_ready hready stack he, ?_, rfl, hesp ▸ hargs, interruptFrameAt_eq hframe, hsame, ?_⟩
  · show (readyGate pointerTable wrapper (seenAs e).vector).offset = _
    rw [readyGate, if_neg hcall]
  · intro returned hreturned
    rw [interruptBack_iret hesp hroom htop hframe hreturned hc.cs hc.ss, frameOf_resume]

theorem freshProgram_sized : freshProgram.Sized := by
  refine ⟨fun r => ?_, by decide, by decide, by decide, by decide⟩
  cases r <;> decide

theorem freshProgram_ready :
    IdtReady freshProgram.mem 0x110000 (fun n => 0x120000 + 16 * n) 0x130000 :=
  gateAt_idtInit (fun _ => 0) 0x110000 freshProgram_table (by decide)

theorem interrupt_transparent_breakpoint :
    ∃ entered called, freshProgram.deliver (idtrDescriptor 0x110000) ⟨0x10, 0x600000⟩ (.soft 3 1) =
        some (.fault 13 26, entered) ∧ runOps entered.toMachine (interruptStub 13 0x1200E0) = called ∧
      interruptFrameAt called.mem 0x5FFFC8 = frameOf freshProgram 0x600000 (.fault 13 26) := by
  obtain ⟨entered, called, hdeliver, _, hcalled, _, hframe, _⟩ := interrupt_transparent
    freshProgram_sized freshProgram_ready (show (RingStack.mk 0x10 0x600000).esp0 = 0x600000 from rfl) (by decide)
    (by decide) (show 0x1200E0 < 2 ^ 32 by decide) (e := .soft 3 1) (show 3 < idtMaxEntries by decide) (by decide)
  exact ⟨entered, called, hdeliver, hcalled, hframe⟩

/-- The wrapper from the gate to the call. -/
theorem isr80hWrapper_spec (hc : c.Sized) (hstack : stack.esp0 = top) (hroom : 68 ≤ top) (htop : top < 2 ^ 32)
    (hafter : after < 2 ^ 32) (n len : Nat) (gate : Gate) :
    let called := runOps (c.enter stack gate (.soft n len)).toMachine (isr80hWrapper after)
    called.reg .esp = top - 68 ∧
      WordsFrom called.mem (top - 68) (after :: c.reg .eax :: (top - 56) :: (frameOf c top (.soft n len)).list) ∧
      SameOutside ⟨top - 68, 68⟩ c.mem called.mem := by
  obtain ⟨mem0, hcoded, hat0, hsame0⟩ := enterCoded_spec hc hstack (by omega) htop gate (.soft n len)
    fun w hw => by cases hw
  rw [if_pos (show Event.code (.soft n len) = [] from rfl)] at hcoded
  generalize (c.enter stack gate (.soft n len)).toMachine = entered at *
  have hwrapper : ∀ m, m = execOp (entered.pushVal 0) .cli →
      runOps entered (isr80hWrapper after) =
        (m.pushAll m.pushedRegs).pushAll [(m.pushAll m.pushedRegs).reg .esp, m.reg .eax, after] := by
    intro m hm
    rw [isr80hWrapper, runOps_cons, runOps_cons, show execOp (execOp entered .cli) (.pushImm 0x00) = m from
      (pushVal_cli entered 0).trans hm.symm]
    rfl
  rw [hwrapper _ rfl, hcoded]
  exact handlerStack_spec hc hroom htop rfl hat0 hsame0 (hc.reg .eax) hafter

/-- The `iretd` behind a system call. -/
theorem isr80hWrapperBack_iret {called returned : Machine} {tmpRes : Nat} {f : InterruptFrame}
    (hesp : called.reg .esp = top - 68) (hroom : 68 ≤ top) (htop : top < 2 ^ 32)
    (hframe : WordsFrom called.mem (top - 56) f.list) (hreturned : Returned called returned (top - 56))
    (hresult : returned.reg .eax < 2 ^ 32) (htmp : tmpRes + 4 ≤ top - 56 ∨ top ≤ tmpRes) (hcs : f.cs < 2 ^ 16)
    (hss : f.ss < 2 ^ 16) (cs ss : Nat) :
    Cpu.iret ⟨runOps returned (isr80hWrapperBack tmpRes), cs, ss⟩ =
      {f.resume returned with
        reg := Function.update f.regs .eax (returned.reg .eax)
        mem := write32 returned.mem tmpRes (returned.reg .eax)} := by
  have hcode : isr80hWrapperBack tmpRes = .movTo tmpRes .eax :: (interruptBack ++ [.movFrom .eax tmpRes]) := rfl
  rw [hcode, runOps_cons, runOps_append, runOps_cons, runOps_nil]
  generalize hstored : execOp returned (.movTo tmpRes .eax) = stored
  have hmem0 : stored.mem = write32 returned.mem tmpRes (returned.reg .eax) := hstored ▸ rfl
  have hseg0 : stored.seg = returned.seg := hstored ▸ rfl
  have hesp0 : stored.reg .esp = top - 64 := by
    rw [← hstored]
    show returned.reg .esp = _
    rw [hreturned.esp, hesp]
    omega
  have hframe0 : WordsFrom stored.mem (top - 56) f.list := by
    rw [hmem0]
    refine (hreturned.frame_list hframe).outside (sameOutside_write32 _ _ _) ?_
    simp only [InterruptFrame.list, List.length_cons, List.length_nil]
    omega
  obtain ⟨hreg, hseg, hmem⟩ := interruptBack_spec hesp0 hroom htop hframe0
  generalize runOps stored interruptBack = back at *
  have hresult' : read32 back.mem tmpRes = returned.reg .eax := by
    rw [hmem, hmem0]
    exact read32_write32 _ _ hresult
  have hloaded : execOp back (.movFrom .eax tmpRes) =
      {back with reg := Function.update (Function.update f.regs .esp (top - 20)) .eax (returned.reg .eax)} := by
    simp only [execOp, Machine.set, hresult', hreg]
  have hiret := (frame_words hframe0).2
  rw [show top - 56 + 36 = top - 20 by omega, ← hmem] at hiret
  have hregs : Function.update (Function.update (Function.update f.regs .esp (top - 20)) .eax (returned.reg .eax)) .esp
      f.esp = Function.update f.regs .eax (returned.reg .eax) := by
    funext r
    cases r <;> rfl
  rw [hloaded, iret_spec (a := top - 20) (by rfl) (by omega) hiret hcs hss]
  simp only [InterruptFrame.resume, hseg, hmem, hseg0, hmem0, hregs]

/-- **A system call is transparent but for its result.** `int 0x80` calls the handler with `eax` and the
frame; what the handler returns is in `eax` when the program goes on behind the `int`, and every other
register is as it was. -/
theorem systemCall_transparent (hc : c.Sized) (hready : IdtReady c.mem descriptors pointerTable wrapper)
    (hstack : stack.esp0 = top) (hroom : 68 ≤ top) (htop : top < 2 ^ 32) (hafter : after < 2 ^ 32) {tmpRes : Nat}
    (htmp : tmpRes + 4 ≤ top - 56 ∨ top ≤ tmpRes) (len : Nat) :
    ∃ entered called, c.deliver (idtrDescriptor descriptors) stack (.soft 0x80 len) =
        some (.soft 0x80 len, entered) ∧
      entered.eip = wrapper ∧
      runOps entered.toMachine (isr80hWrapper after) = called ∧
      WordsFrom called.mem (called.reg .esp) [after, c.reg .eax, top - 56] ∧
      interruptFrameAt called.mem (top - 56) = frameOf c top (.soft 0x80 len) ∧
      SameOutside ⟨top - 68, 68⟩ c.mem called.mem ∧
      ∀ returned, Returned called returned (top - 56) → returned.reg .eax < 2 ^ 32 →
        Cpu.iret ⟨runOps returned (isr80hWrapperBack tmpRes), entered.cs, entered.ss⟩ =
          {c with reg := Function.update c.reg .eax (returned.reg .eax), seg := returned.seg,
                  mem := write32 returned.mem tmpRes (returned.reg .eax), eip := (c.eip + len) % 2 ^ 32} := by
  obtain ⟨hesp, hwords, hsame⟩ := isr80hWrapper_spec hc hstack hroom htop hafter 0x80 len
    (readyGate pointerTable wrapper 0x80)
  obtain ⟨hargs, hframe⟩ := frame_over hwords hroom
  have hdeliver := deliver_ready hready stack (e := .soft 0x80 len) (show 0x80 < idtMaxEntries by decide)
  rw [show seenAs (.soft 0x80 len) = .soft 0x80 len by rw [seenAs, if_pos rfl],
    show Event.vector (.soft 0x80 len) = 0x80 from rfl] at hdeliver
  generalize hcalled : runOps (c.enter stack (readyGate pointerTable wrapper 0x80) (.soft 0x80 len)).toMachine
    (isr80hWrapper after) = called at *
  refine ⟨_, called, hdeliver, ?_, hcalled, hesp ▸ hargs, interruptFrameAt_eq hframe, hsame, ?_⟩
  · show (readyGate pointerTable wrapper 0x80).offset = wrapper
    rw [readyGate, if_pos rfl]
  intro returned hreturned hresult
  rw [isr80hWrapperBack_iret hesp hroom htop hframe hreturned hresult htmp hc.cs hc.ss, frameOf_resume]
  have hregs : (frameOf c top (.soft 0x80 len)).regs = c.reg := by
    funext r
    cases r <;> rfl
  rw [hregs]
  rfl

end BasicOS

import BasicOS.Isr80h.Dispatch

/-! The system calls of the user library, from a program's call to its return.

`kernel.asm` of the library has a function for each system call: it puts the number into `eax`, its
argument on top of the stack, and does `int 0x80`. The kernel finds the argument with
`task_get_stack_item`, on the stack the program was saved with. So a C program that calls such a
function has the kernel run the command the function is named after, on its own argument, and
gets the command's result back with every other register, the stack and the return address as C
has it (`library_call`). -/
namespace BasicOS
open Lib IA32

/-! ### The functions -/

/-- The functions of `kernel.asm`. -/
inductive Library where
  | exit
  | print
  | kernelGetkey
  | kernelPutchar
  | kernelMalloc
  | kernelFree
  | kernelStartNewProcess
  | kernelSystem
  | kernelGetProcessArguments
deriving DecidableEq, Repr

/-- `mov eax, number` and the argument. -/
def callWithArgument (number : Nat) : List Op :=
  [.plain (.push .ebp), .plain (.mov .ebp .esp), .movImm .eax number, .plain (.pushMem .ebp 8)]

/-- Up to the `int 0x80`. -/
def Library.before : Library → List Op
  | .exit => [.plain (.push .ebp), .plain (.mov .ebp .esp), .xor .eax .eax]
  -- the argument before the number
  | .print => [.plain (.push .ebp), .plain (.mov .ebp .esp), .plain (.pushMem .ebp 8), .movImm .eax 1]
  | .kernelGetkey => [.plain (.push .ebp), .plain (.mov .ebp .esp), .movImm .eax 3]
  | .kernelPutchar => callWithArgument 4
  | .kernelMalloc => callWithArgument 5
  | .kernelFree => callWithArgument 6
  | .kernelStartNewProcess => callWithArgument 7
  | .kernelSystem => callWithArgument 8
  | .kernelGetProcessArguments => callWithArgument 9

/-- Behind it. -/
def Library.after : Library → List Op
  | .exit | .kernelGetkey => [.plain (.pop .ebp), .plain .ret]
  | _ => [.plain (.add .esp 4), .plain (.pop .ebp), .plain .ret]

/-! ### What they are for -/

/-- The command a function is named after. -/
def Library.command : Library → SysCommand
  | .exit => .sysExit
  | .print => .isrSysPrint
  | .kernelGetkey => .sysGetKey
  | .kernelPutchar => .sysPutchar
  | .kernelMalloc => .sysMalloc
  | .kernelFree => .isrSysFree
  | .kernelStartNewProcess => .sysProcessLoadStart
  | .kernelSystem => .sysInvokeSysCommand
  | .kernelGetProcessArguments => .sysGetProcessArguments

/-- The arguments of a call, the first of them `arg`. -/
def Library.arguments (w : Library) (arg : Nat) : List Nat :=
  match w with
  | .exit | .kernelGetkey => []
  | _ => [arg]

/-- The number of a command. -/
def SysCommand.number : SysCommand → Nat
  | .sysExit => 0
  | .isrSysPrint => 1
  | .isrSysPrintExt => 2
  | .sysGetKey => 3
  | .sysPutchar => 4
  | .sysMalloc => 5
  | .isrSysFree => 6
  | .sysProcessLoadStart => 7
  | .sysInvokeSysCommand => 8
  | .sysGetProcessArguments => 9

theorem sysTable_number (command : SysCommand) : sysTable command.number = some command := by
  rw [sysTable_at]
  cases command <;> rfl

/-- The number is found by the kernel as it was given. -/
theorem isr80hHandler_number (run : CommandRun SysCommand) (task : Nat) (command : SysCommand) (frame : Nat)
    (mem : Memory) :
    isr80hHandler sysTable run task command.number frame mem =
      run command (taskSaveState mem task (interruptFrameAt mem frame)) := by
  have hnumber : command.number < 10 := by cases command <;> decide
  have hint : s32 command.number = command.number := s32_of_lt (by omega)
  unfold isr80hHandler isr80hHandleCommand
  simp only [hint, Int.toNat_natCast]
  rw [if_neg (by unfold maxSyscallHandleCommands; omega), sysTable_number]

/-! ### Up to the `int` -/

theorem statusFlags_lt {eflags : Nat} (h : eflags < 2 ^ 32) (result : Nat) (carry adjust overflow : Bool) :
    statusFlags eflags result carry adjust overflow < 2 ^ 32 := by
  have hbit : ∀ (mask : Nat) (b : Bool) (fl : Nat), mask < 2 ^ 32 → fl < 2 ^ 32 →
      (if b then fl ||| mask else fl &&& (0xFFFFFFFF - mask)) < 2 ^ 32 := by
    intro mask b fl hmask hfl
    split
    · exact Nat.or_lt_two_pow hfl hmask
    · exact Nat.lt_of_le_of_lt Nat.and_le_left hfl
  unfold statusFlags
  exact hbit _ _ _ (by decide) (hbit _ _ _ (by decide) (hbit _ _ _ (by decide) (hbit _ _ _ (by decide)
    (hbit _ _ _ (by decide) (hbit _ _ _ (by decide) h)))))

/-- A function before its `int`, called with `sp` as the stack pointer. -/
structure AtInt (c : Cpu) (m : Machine) (sp : Nat) (arguments : List Nat) (number : Nat) : Prop where
  reg : m.reg = Function.update (Function.update (Function.update c.reg .ebp (sp - 4)) .eax number) .esp
    (sp - 4 - 4 * arguments.length)
  eflags : m.eflags < 2 ^ 32
  stack : WordsFrom m.mem (sp - 4 - 4 * arguments.length) (arguments ++ [c.reg .ebp])
  same : SameOutside ⟨sp - 8, 8⟩ c.mem m.mem

variable {c : Cpu} {sp arg : Nat}

/-- The frame pointer is set up. -/
theorem prologue_eq (hsp : c.reg .esp = sp) (hlow : 8 ≤ sp) (hhigh : sp + 8 ≤ 2 ^ 32) (rest : List Op) :
    runOps c.toMachine (.plain (.push .ebp) :: .plain (.mov .ebp .esp) :: rest) =
      runOps {c.toMachine with
        reg := Function.update (Function.update c.reg .esp (sp - 4)) .ebp (sp - 4)
        mem := write32 c.mem (sp - 4) (c.reg .ebp)} rest := by
  have haddr : (sp + 2 ^ 32 - 4) % 2 ^ 32 = sp - 4 := by omega
  rw [runOps_cons, runOps_cons, execOp, execOp, exec, exec, Machine.set, Machine.pushVal, hsp, haddr]
  simp only [Function.update_self]

/-- Before the number and the argument. -/
theorem prologue_words (hc : c.Sized) (hlow : 8 ≤ sp) :
    WordsFrom (write32 c.mem (sp - 4) (c.reg .ebp)) (sp - 4) [c.reg .ebp] ∧
      SameOutside ⟨sp - 8, 8⟩ c.mem (write32 c.mem (sp - 4) (c.reg .ebp)) := by
  refine ⟨⟨read32_write32 _ _ (hc.reg _), trivial⟩, (sameOutside_write32 _ _ _).mono fun b hb => ?_⟩
  rw [Extent.holds_mk] at hb ⊢
  omega

/-- The argument of the caller, pushed again. -/
theorem pushArgument (hc : c.Sized) (hlow : 8 ≤ sp) (hhigh : sp + 8 ≤ 2 ^ 32) (harg : read32 c.mem (sp + 4) = arg) :
    let mem := write32 c.mem (sp - 4) (c.reg .ebp)
    read32 mem ((sp - 4 + 8) % 2 ^ 32) = arg ∧
      WordsFrom (write32 mem (sp - 8) arg) (sp - 8) [arg, c.reg .ebp] ∧
      SameOutside ⟨sp - 8, 8⟩ c.mem (write32 mem (sp - 8) arg) := by
  obtain ⟨⟨hebp, _⟩, hsame⟩ := prologue_words hc hlow
  have harg' : arg < 2 ^ 32 := harg ▸ read32_lt _ _
  refine ⟨?_, ⟨read32_write32 _ _ harg', ?_, trivial⟩, hsame.trans ((sameOutside_write32 _ _ _).mono fun b hb => ?_)⟩
  · rw [show (sp - 4 + 8) % 2 ^ 32 = sp + 4 by omega, hsame.read32 (by simp only; omega), harg]
  · rw [show sp - 8 + 4 = sp - 4 by omega, read32_write32_apart _ _ (by omega), hebp]
  · rw [Extent.holds_mk] at hb ⊢
    omega

theorem callWithArgument_atInt (hc : c.Sized) (hsp : c.reg .esp = sp) (hlow : 8 ≤ sp) (hhigh : sp + 8 ≤ 2 ^ 32)
    (harg : read32 c.mem (sp + 4) = arg) (number : Nat) :
    AtInt c (runOps c.toMachine (callWithArgument number)) sp [arg] number := by
  obtain ⟨hread, hwords, hsame⟩ := pushArgument hc hlow hhigh harg
  have haddr : (sp - 4 + 2 ^ 32 - 4) % 2 ^ 32 = sp - 8 := by omega
  unfold callWithArgument
  rw [prologue_eq hsp hlow hhigh]
  simp only [runOps_cons, runOps_nil, execOp, exec, Machine.set, Machine.at, Machine.pushVal, Function.update_self,
    Function.update_of_ne, ne_eq, reduceCtorEq, not_false_eq_true, hread, haddr]
  refine ⟨?_, hc.eflags, hwords, hsame⟩
  funext r
  cases r <;> rfl

/-- **Every function of the library reaches its `int`** with its command's number in `eax` and its argument on
top of the stack. -/
theorem Library.atInt (hc : c.Sized) (hsp : c.reg .esp = sp) (hlow : 8 ≤ sp) (hhigh : sp + 8 ≤ 2 ^ 32)
    (harg : read32 c.mem (sp + 4) = arg) (w : Library) :
    AtInt c (runOps c.toMachine w.before) sp (w.arguments arg) w.command.number := by
  have hnone := prologue_words hc hlow
  cases w
  case exit =>
    unfold Library.before
    rw [prologue_eq hsp hlow hhigh]
    simp only [runOps_cons, runOps_nil, execOp, Machine.set, Nat.xor_self]
    refine ⟨?_, ?_, hnone.1, hnone.2⟩
    · funext r
      cases r <;> rfl
    · show statusFlags c.eflags 0 false (c.eflags.testBit 4) false < 2 ^ 32
      exact statusFlags_lt hc.eflags ..
  case kernelGetkey =>
    unfold Library.before
    rw [prologue_eq hsp hlow hhigh]
    simp only [runOps_cons, runOps_nil, execOp, Machine.set]
    refine ⟨?_, hc.eflags, hnone.1, hnone.2⟩
    funext r
    cases r <;> rfl
  case print =>
    obtain ⟨hread, hwords, hsame⟩ := pushArgument hc hlow hhigh harg
    have haddr : (sp - 4 + 2 ^ 32 - 4) % 2 ^ 32 = sp - 8 := by omega
    unfold Library.before
    rw [prologue_eq hsp hlow hhigh]
    simp only [runOps_cons, runOps_nil, execOp, exec, Machine.set, Machine.at, Machine.pushVal, Function.update_self,
      Function.update_of_ne, ne_eq, reduceCtorEq, not_false_eq_true, hread, haddr]
    refine ⟨?_, hc.eflags, hwords, hsame⟩
    funext r
    cases r <;> rfl
  all_goals exact callWithArgument_atInt hc hsp hlow hhigh harg _

/-! ### Behind it -/

/-- The function's end, with the result in `eax`. -/
theorem Library.after_spec (w : Library) {m : Machine} {ebp ret : Nat} (hlow : 8 ≤ sp)
    (hhigh : sp + 8 ≤ 2 ^ 32) (hesp : m.reg .esp = sp - 4 - 4 * (w.arguments arg).length)
    (hwords : WordsFrom m.mem (sp - 4) [ebp, ret]) :
    (runOps m w.after).reg = Function.update (Function.update m.reg .ebp ebp) .esp (sp + 4) ∧
      (runOps m w.after).eip = ret ∧ (runOps m w.after).mem = m.mem ∧ (runOps m w.after).seg = m.seg := by
  obtain ⟨hebp, hret, _⟩ := hwords
  rw [show sp - 4 + 4 = sp by omega] at hret
  -- from the saved frame pointer on
  have hleave : ∀ m' : Machine, m'.reg .esp = sp - 4 → m'.mem = m.mem →
      (∀ r, r ≠ .esp → m'.reg r = m.reg r) → m'.seg = m.seg →
      (runOps m' [.plain (.pop .ebp), .plain .ret]).reg =
          Function.update (Function.update m.reg .ebp ebp) .esp (sp + 4) ∧
        (runOps m' [.plain (.pop .ebp), .plain .ret]).eip = ret ∧
        (runOps m' [.plain (.pop .ebp), .plain .ret]).mem = m.mem ∧
        (runOps m' [.plain (.pop .ebp), .plain .ret]).seg = m.seg := by
    intro m' hesp' hmem hother hseg
    have h1 : (sp - 4 + 4) % 2 ^ 32 = sp := by omega
    have h2 : (sp + 4) % 2 ^ 32 = sp + 4 := by omega
    simp only [runOps_cons, runOps_nil, execOp, exec, Machine.top, Machine.popped, Machine.set, Function.update_self,
      Function.update_of_ne, ne_eq, reduceCtorEq, not_false_eq_true, hesp', hmem, h1, h2, hebp, hret, hseg, and_true]
    funext r
    cases r <;> simp [hother]
  by_cases hnone : w = .exit ∨ w = .kernelGetkey
  · have hafter : w.after = [.plain (.pop .ebp), .plain .ret] := by rcases hnone with rfl | rfl <;> rfl
    have hlen : (w.arguments arg).length = 0 := by rcases hnone with rfl | rfl <;> rfl
    rw [hafter]
    exact hleave m (by rw [hesp, hlen]; omega) rfl (fun _ _ => rfl) rfl
  · have hafter : w.after = .plain (.add .esp 4) :: [.plain (.pop .ebp), .plain .ret] := by
      cases w <;> first | rfl | exact absurd (by simp) hnone
    have hlen : (w.arguments arg).length = 1 := by
      cases w <;> first | rfl | exact absurd (by simp) hnone
    rw [hafter, runOps_cons]
    refine hleave _ ?_ rfl (fun r hr => ?_) rfl
    · simp only [execOp, exec, Machine.set, Function.update_self, hesp, hlen]
      omega
    · exact Function.update_of_ne hr ..

/-! ### There and back -/

/-- Where a call's memory is: the program's stack pointer, the table of gates, the top of the kernel's
stack, the program's `struct task` and `tmp_res`. -/
structure CallLayout (sp descriptors top task tmpRes : Nat) : Prop where
  stack : 8 ≤ sp ∧ sp + 8 ≤ 2 ^ 32
  kernel : 68 ≤ top ∧ top < 2 ^ 32
  stack_gates : sp ≤ descriptors ∨ descriptors + 8 * idtMaxEntries ≤ sp - 8
  stack_kernel : sp + 8 ≤ top - 68 ∨ top ≤ sp - 8
  stack_task : sp + 8 ≤ task ∨ task + sizeofTask ≤ sp - 8
  stack_tmpRes : sp + 8 ≤ tmpRes ∨ tmpRes + 4 ≤ sp - 8
  kernel_tmpRes : top ≤ tmpRes ∨ tmpRes + 4 ≤ top - 56

theorem frameOf_words (hc : c.Sized) {top : Nat} (len : Nat) : (frameOf c top (.soft 0x80 len)).Words :=
  ⟨hc.reg _, hc.reg _, hc.reg _, hc.reg _, hc.reg _, hc.reg _, hc.reg _, Nat.mod_lt _ (by decide),
    Nat.lt_trans hc.cs (by decide), hc.eflags, hc.reg _, Nat.lt_trans hc.ss (by decide)⟩

/-- The program at its `int`, at address `intAddr`. -/
def atInt (c : Cpu) (w : Library) (intAddr : Nat) : Cpu :=
  {c with toMachine := {runOps c.toMachine w.before with eip := intAddr}}

theorem atInt_sized (hc : c.Sized) {w : Library} (h : AtInt c (runOps c.toMachine w.before) sp (w.arguments arg)
    w.command.number) (hsp : c.reg .esp = sp) {intAddr : Nat} (hint : intAddr < 2 ^ 32) :
    (atInt c w intAddr).Sized := by
  have hsp' : sp < 2 ^ 32 := hsp ▸ hc.reg _
  have hnumber : w.command.number < 10 := by cases w <;> decide
  refine ⟨fun r => ?_, h.eflags, hint, hc.cs, hc.ss⟩
  show (runOps c.toMachine w.before).reg r < 2 ^ 32
  rw [h.reg]
  cases r
  case eax => exact Nat.lt_trans hnumber (by decide)
  case ebp => exact Nat.lt_of_le_of_lt (Nat.sub_le ..) hsp'
  case esp => exact Nat.lt_of_le_of_lt (Nat.sub_le ..) (Nat.lt_of_le_of_lt (Nat.sub_le ..) hsp')
  all_goals exact hc.reg _

/-- The arguments are on the stack the task was saved with. -/
theorem taskGetStackItem_saved {mem : Memory} {f : InterruptFrame} {task : Nat} (hf : f.Words) {words : List Nat}
    (hwords : WordsFrom mem f.esp words) (hfits : f.esp + 4 * words.length ≤ 2 ^ 32)
    (hapart : f.esp + 4 * words.length ≤ task ∨ task + sizeofTask ≤ f.esp) {i a : Nat} (hi : words[i]? = some a) :
    taskGetStackItem (taskSaveState mem task f) task i = a := by
  obtain ⟨hlen, hget⟩ := List.getElem?_eq_some_iff.mp hi
  have hsplit : words = words.take i ++ a :: words.drop (i + 1) := by
    rw [← hget, ← List.drop_eq_getElem_cons hlen, List.take_append_drop]
  rw [hsplit, wordsFrom_append, List.length_take, Nat.min_eq_left (Nat.le_of_lt hlen)] at hwords
  unfold taskGetStackItem
  rw [registersAt_taskSaveState mem task hf]
  show read32 _ (u32 (f.esp + 4 * i)) = a
  rw [u32_of_lt (by omega), (sameOutside_taskSaveState mem task f).read32
    (by unfold taskRegisters; simp only; unfold sizeofTask at hapart; omega)]
  exact hwords.2.1

variable {stack : RingStack} {descriptors wrapper top task tmpRes ret after intAddr : Nat} {pointerTable : Nat → Nat}

/-- The program has written below its stack pointer only. -/
theorem atInt_ready {w : Library} {words : List Nat} {number : Nat}
    (hat : AtInt c (runOps c.toMachine w.before) sp words number) (hready : IdtReady c.mem descriptors pointerTable wrapper)
    (hlow : 8 ≤ sp) (hgates : sp ≤ descriptors ∨ descriptors + 8 * idtMaxEntries ≤ sp - 8) (intAddr : Nat) :
    IdtReady (atInt c w intAddr).mem descriptors pointerTable wrapper := by
  intro n hn
  refine (gateAt_congr fun b h1 h2 => hat.same b ?_).trans (hready n hn)
  unfold idtMaxEntries at *
  rw [Extent.holds_mk]
  omega

/-- The words of the call, and that of the caller above them. -/
theorem AtInt.own {m : Machine} {words : List Nat} {number : Nat} (hat : AtInt c m sp words number)
    (hret : read32 c.mem sp = ret) (hlow : 8 ≤ sp) (hlen : words.length ≤ 1) : WordsFrom m.mem (sp - 4 - 4 * words.length) (words ++ [c.reg .ebp, ret]) := by
  have hstack := hat.stack
  rw [wordsFrom_append] at hstack ⊢
  refine ⟨hstack.1, hstack.2.1, ?_, trivial⟩
  rw [show sp - 4 - 4 * words.length + 4 * words.length + 4 = sp by omega, ← hret]
  exact hat.same.read32 (by simp only; omega)

/-- The two words above the arguments are there when the command has returned. -/
theorem wordsFrom_returned {called returned : Memory} {f : InterruptFrame} {words : List Nat} {ebp : Nat}
    (hcalled : WordsFrom called (sp - 4 - 4 * words.length) (words ++ [ebp, ret])) (hlow : 8 ≤ sp)
    (hlen : words.length ≤ 1) (htask : sp + 8 ≤ task ∨ task + sizeofTask ≤ sp - 8)
    (htmp : sp + 8 ≤ tmpRes ∨ tmpRes + 4 ≤ sp - 8)
    (hkept : ∀ b, sp - 4 ≤ b → b < sp + 4 → returned b = taskSaveState called task f b) (result : Nat) :
    WordsFrom (write32 returned tmpRes result) (sp - 4) [ebp, ret] := by
  have hsaved : WordsFrom (taskSaveState called task f) (sp - 4) [ebp, ret] := by
    have hpair := (wordsFrom_append.mp hcalled).2
    rw [show sp - 4 - 4 * words.length + 4 * words.length = sp - 4 by omega] at hpair
    refine hpair.outside (sameOutside_taskSaveState called task f) ?_
    simp only [List.length_cons, List.length_nil]
    unfold taskRegisters sizeofTask at *
    omega
  have hreturned : WordsFrom returned (sp - 4) [ebp, ret] := by
    refine hsaved.congr fun b h1 h2 => hkept b h1 ?_
    simp only [List.length_cons, List.length_nil] at h2
    omega
  refine hreturned.outside (sameOutside_write32 _ _ _) ?_
  simp only [List.length_cons, List.length_nil]
  omega

/-- Back behind the `int`, the function's end leaves the caller's registers, but for the result. -/
theorem Library.returns (w : Library) {back : Machine} {result : Nat} (hlow : 8 ≤ sp) (hhigh : sp + 8 ≤ 2 ^ 32)
    (hat : AtInt c (runOps c.toMachine w.before) sp (w.arguments arg) w.command.number)
    (hreg : back.reg = Function.update (runOps c.toMachine w.before).reg .eax result)
    (hwords : WordsFrom back.mem (sp - 4) [c.reg .ebp, ret]) :
    (runOps back w.after).eip = ret ∧
      (runOps back w.after).reg = Function.update (Function.update c.reg .eax result) .esp (sp + 4) ∧
      (runOps back w.after).mem = back.mem := by
  have hesp : back.reg .esp = sp - 4 - 4 * (w.arguments arg).length := by
    rw [hreg, Function.update_of_ne (by decide)]
    exact congrFun hat.reg .esp
  obtain ⟨hafter, heip, hmem, _⟩ := w.after_spec hlow hhigh hesp hwords
  refine ⟨heip, ?_, hmem⟩
  rw [hafter, hreg, hat.reg]
  funext r
  cases r <;> rfl

/-- **A call of the library.** From a C program's call of a function of `kernel.asm`, the kernel runs the
command the function is named after, which finds the caller's argument; and when the command has
returned and left the words of the call alone, the program goes on behind its call with the result
in `eax` and every other register as C left it. -/
theorem library_call (hc : c.Sized) (hready : IdtReady c.mem descriptors pointerTable wrapper)
    (hstack : stack.esp0 = top) (hafter : after < 2 ^ 32) (hint : intAddr < 2 ^ 32) (hsp : c.reg .esp = sp)
    (hcall : WordsFrom c.mem sp [ret, arg]) (hl : CallLayout sp descriptors top task tmpRes) (w : Library) :
    ∃ entered called saved,
      (atInt c w intAddr).deliver (idtrDescriptor descriptors) stack (.soft 0x80 2) = some (.soft 0x80 2, entered) ∧
      entered.eip = wrapper ∧ runOps entered.toMachine (isr80hWrapper after) = called ∧
      WordsFrom called.mem (called.reg .esp) [after, w.command.number, top - 56] ∧
      (∀ run, isr80hHandler sysTable run task w.command.number (top - 56) called.mem = run w.command saved) ∧
      (∀ i a, (w.arguments arg)[i]? = some a → taskGetStackItem saved task i = a) ∧
      (∀ b, ¬ (sp - 8 ≤ b ∧ b < sp) → ¬ (top - 68 ≤ b ∧ b < top) → ¬ (task ≤ b ∧ b < task + sizeofTask) →
        saved b = c.mem b) ∧
      ∀ returned, Returned called returned (top - 56) → returned.reg .eax < 2 ^ 32 →
        (∀ b, sp - 4 ≤ b → b < sp + 4 → returned.mem b = saved b) →
        let back := Cpu.iret ⟨runOps returned (isr80hWrapperBack tmpRes), entered.cs, entered.ss⟩
        let done := runOps back.toMachine w.after
        back.eip = (intAddr + 2) % 2 ^ 32 ∧ done.eip = ret ∧ back.cs = c.cs ∧ back.ss = c.ss ∧
          done.reg = Function.update (Function.update c.reg .eax (returned.reg .eax)) .esp (sp + 4) ∧
          done.mem = write32 returned.mem tmpRes (returned.reg .eax) := by
  obtain ⟨⟨hlow, hhigh⟩, ⟨hroom, htop⟩, hgates, hkernel, htask, htmp, hktmp⟩ := hl
  obtain ⟨hret, harg, _⟩ := hcall
  have hat := Library.atInt hc hsp hlow hhigh harg w
  have hsized := atInt_sized hc hat hsp hint
  have hargs : (w.arguments arg).length ≤ 1 := by cases w <;> simp [Library.arguments]
  have hready' := atInt_ready hat hready hlow hgates intAddr
  obtain ⟨entered, called, hdeliver, hwrapper, hcalled, hstackWords, hframe, hsame, hback⟩ :=
    systemCall_transparent hsized hready' hstack hroom htop hafter (show tmpRes + 4 ≤ top - 56 ∨ top ≤ tmpRes by omega) 2
  have heax : (atInt c w intAddr).reg .eax = w.command.number := congrFun hat.reg .eax
  have hesp : (atInt c w intAddr).reg .esp = sp - 4 - 4 * (w.arguments arg).length := congrFun hat.reg .esp
  have hfesp : (frameOf (atInt c w intAddr) top (.soft 0x80 2)).esp = sp - 4 - 4 * (w.arguments arg).length := hesp
  have hfwords : (frameOf (atInt c w intAddr) top (.soft 0x80 2)).Words := frameOf_words hsized 2
  generalize frameOf (atInt c w intAddr) top (.soft 0x80 2) = f at *
  have hown : WordsFrom (atInt c w intAddr).mem (sp - 4 - 4 * (w.arguments arg).length)
      (w.arguments arg ++ [c.reg .ebp, ret]) := hat.own hret hlow hargs
  have hlength : (w.arguments arg ++ [c.reg .ebp, ret]).length = (w.arguments arg).length + 2 := by
    rw [List.length_append]
    rfl
  have hcalledWords := hown.outside hsame (by simp only [hlength]; omega)
  refine ⟨entered, called, taskSaveState called.mem task f, hdeliver, hwrapper, hcalled, heax ▸ hstackWords, fun run => ?_,
    fun i a hi => ?_, fun b hsp' hktop htask' => ?_, fun returned hreturned hresult hkept => ?_⟩
  · rw [isr80hHandler_number, hframe]
  · have hi' : (w.arguments arg ++ [c.reg .ebp, ret])[i]? = some a := by
      rw [List.getElem?_append_left (List.getElem?_eq_some_iff.mp hi).1, hi]
    refine taskGetStackItem_saved hfwords (by rw [hfesp]; exact hcalledWords) ?_ ?_ hi'
    · rw [hfesp, hlength]
      omega
    · rw [hfesp, hlength]
      omega
  · rw [sameOutside_taskSaveState called.mem task f b (by rw [Extent.holds_mk]; unfold taskRegisters sizeofTask at *; omega),
      hsame b (by rw [Extent.holds_mk]; omega)]
    exact hat.same b (by rw [Extent.holds_mk]; omega)
  · intro back done
    have hiret : back = _ := hback returned hreturned hresult
    have hback : back.toMachine.reg = Function.update (runOps c.toMachine w.before).reg .eax (returned.reg .eax) := by
      rw [hiret]
      rfl
    have hbackWords : WordsFrom back.mem (sp - 4) [c.reg .ebp, ret] := by
      rw [hiret]
      exact wordsFrom_returned hcalledWords hlow hargs htask htmp hkept _
    obtain ⟨heip, hreg, hmem⟩ := w.returns hlow hhigh hat hback hbackWords
    exact ⟨by rw [hiret]; rfl, heip, by rw [hiret]; rfl, by rw [hiret]; rfl, hreg, by rw [hmem, hiret]⟩

/-- A program about to ask for 24 bytes. -/
def callingProgram : Cpu :=
  {freshProgram with mem := write32 (write32 freshProgram.mem 0x3FF000 0x400020) 0x3FF004 24}

theorem callingProgram_words : WordsFrom callingProgram.mem 0x3FF000 [0x400020, 24] := by
  refine ⟨?_, read32_write32 _ _ (by decide), trivial⟩
  rw [show callingProgram.mem = write32 (write32 freshProgram.mem 0x3FF000 0x400020) 0x3FF004 24 from rfl,
    read32_write32_apart _ _ (by decide)]
  exact read32_write32 _ _ (by decide)

theorem callingProgram_ready :
    IdtReady callingProgram.mem 0x110000 (fun n => 0x120000 + 16 * n) 0x130000 := by
  intro n hn
  refine (gateAt_congr fun b h1 h2 => ?_).trans (freshProgram_ready n hn)
  unfold idtMaxEntries at hn
  show write32 (write32 freshProgram.mem 0x3FF000 0x400020) 0x3FF004 24 b = _
  rw [write32_apart _ _ (by omega), write32_apart _ _ (by omega)]

theorem library_call_malloc :
    ∃ entered called saved, (atInt callingProgram .kernelMalloc 0x401000).deliver (idtrDescriptor 0x110000)
        ⟨0x10, 0x600000⟩ (.soft 0x80 2) = some (.soft 0x80 2, entered) ∧
      runOps entered.toMachine (isr80hWrapper 0x1300F0) = called ∧
      (∀ run, isr80hHandler sysTable run 0x700000 5 0x5FFFC8 called.mem = run .sysMalloc saved) ∧
      taskGetStackItem saved 0x700000 0 = 24 := by
  have hlayout : CallLayout 0x3FF000 0x110000 0x600000 0x700000 0x140000 := by
    constructor <;> decide
  obtain ⟨entered, called, saved, hdeliver, _, hcalled, _, hrun, hitem, _⟩ := library_call
    (c := callingProgram) ⟨freshProgram_sized.reg, by decide, by decide, by decide, by decide⟩ callingProgram_ready
    (show (RingStack.mk 0x10 0x600000).esp0 = 0x600000 from rfl) (show 0x1300F0 < 2 ^ 32 by decide)
    (show 0x401000 < 2 ^ 32 by decide) rfl callingProgram_words hlayout .kernelMalloc
  exact ⟨entered, called, saved, hdeliver, hcalled, hrun, hitem 0 24 rfl⟩

end BasicOS

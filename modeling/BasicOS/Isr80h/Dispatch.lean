import BasicOS.Memory.KHeap
import BasicOS.Idt.Stubs

/-! The system calls' numbers.

`isr80h_register_command` panics at a number that is out of range or taken, so a sequence of
registrations goes through exactly when its numbers are in range, pairwise different and free
(`registerCommands_ok_iff`), and every command is then found under its own number
(`registerCommands_table`). `isr80h_handler` saves the program that called, and a number nobody has
registered returns 0 and changes nothing. -/
namespace BasicOS
open Lib Program IA32

/-! ### Registering -/

def maxSyscallHandleCommands : Int := 0x400

/-- `isr80h_commands` -/
abbrev CommandTable (A : Type) := Nat → Option A

variable {A : Type}

def isr80hRegisterCommand (commandId : Int) (handler : A) : Program Stop (CommandTable A) Unit := do
  when (commandId < 0 ∨ commandId ≥ maxSyscallHandleCommands) (stop (.panic "Syscall handler exceeds bounds!\n"))
  when (((← get) commandId.toNat).isSome = true) (stop (.panic "Syscall already registered.\n"))
  modify fun commands => Function.update commands commandId.toNat (some handler)

/-- One registration after the other. -/
def registerCommands : List (Int × A) → Program Stop (CommandTable A) Unit
  | [] => return ()
  | (commandId, handler) :: rest => do
    isr80hRegisterCommand commandId handler
    registerCommands rest

/-- The functions behind the numbers. -/
inductive SysCommand where
  | sysExit
  | isrSysPrint
  | isrSysPrintExt
  | sysGetKey
  | sysPutchar
  | sysMalloc
  | isrSysFree
  | sysProcessLoadStart
  | sysInvokeSysCommand
  | sysGetProcessArguments
deriving DecidableEq, Repr

/-- What `isr80h_register_commands` registers, in its order. -/
def sysCommands : List (Int × SysCommand) :=
  [(0, .sysExit), (1, .isrSysPrint), (2, .isrSysPrintExt), (3, .sysGetKey), (4, .sysPutchar), (5, .sysMalloc),
    (6, .isrSysFree), (7, .sysProcessLoadStart), (8, .sysInvokeSysCommand), (9, .sysGetProcessArguments)]

def isr80hRegisterCommands : Program Stop (CommandTable SysCommand) Unit := registerCommands sysCommands

/-- A number a command can be registered under. -/
def InRange (commandId : Int) : Prop := 0 ≤ commandId ∧ commandId < maxSyscallHandleCommands

theorem isr80hRegisterCommand_ok {commandId : Int} {commands : CommandTable A} (hrange : InRange commandId)
    (hfree : commands commandId.toNat = none) (handler : A) :
    isr80hRegisterCommand commandId handler commands =
      .ok ((), Function.update commands commandId.toNat (some handler)) := by
  have hfree' : ¬ (commands commandId.toNat).isSome = true := by simp [hfree]
  unfold isr80hRegisterCommand
  rw [when_false (by unfold InRange at hrange; omega), pure_bind, bind_apply, get_apply]
  simp only
  rw [when_false hfree', pure_bind]
  rfl

/-- Out of range or taken. -/
theorem isr80hRegisterCommand_panics {commandId : Int} {commands : CommandTable A}
    (h : ¬ (InRange commandId ∧ commands commandId.toNat = none)) (handler : A) :
    ∃ message, isr80hRegisterCommand commandId handler commands = .error (.panic message) := by
  unfold isr80hRegisterCommand
  by_cases hrange : commandId < 0 ∨ commandId ≥ maxSyscallHandleCommands
  · rw [when_true hrange]
    exact ⟨_, rfl⟩
  · have hin : InRange commandId := by
      unfold InRange
      omega
    have htaken : (commands commandId.toNat).isSome = true := by
      rw [← Option.ne_none_iff_isSome]
      exact fun hfree => h ⟨hin, hfree⟩
    rw [when_false hrange, pure_bind, bind_apply, get_apply]
    simp only
    rw [when_true htaken]
    exact ⟨_, rfl⟩

/-- The command of a number, of the last pair that has it. -/
def registered (commands : CommandTable A) (list : List (Int × A)) : CommandTable A :=
  list.foldl (fun table entry => Function.update table entry.1.toNat (some entry.2)) commands

/-- The numbers are in range, free and pairwise different. -/
def Registrable (commands : CommandTable A) (list : List (Int × A)) : Prop :=
  (∀ entry ∈ list, InRange entry.1 ∧ commands entry.1.toNat = none) ∧ list.Pairwise fun a b => a.1 ≠ b.1

/-- What is free behind one registration was free before it and has another number. -/
theorem registrable_cons {commands : CommandTable A} {commandId : Int} {handler : A} {rest : List (Int × A)} :
    Registrable commands ((commandId, handler) :: rest) ↔
      (InRange commandId ∧ commands commandId.toNat = none) ∧
        Registrable (Function.update commands commandId.toNat (some handler)) rest := by
  unfold Registrable
  rw [List.forall_mem_cons, List.pairwise_cons, and_assoc]
  refine and_congr_right fun hfirst => ?_
  have hfree : ∀ other : Int × A, InRange other.1 →
      (Function.update commands commandId.toNat (some handler) other.1.toNat = none ↔
        commands other.1.toNat = none ∧ commandId ≠ other.1) := by
    intro other hother
    by_cases hsame : other.1.toNat = commandId.toNat
    · have heq : commandId = other.1 := by
        unfold InRange at hother hfirst
        omega
      simp [hsame, heq]
    · have hne : commandId ≠ other.1 := fun h => hsame (by rw [h])
      rw [Function.update_of_ne hsame]
      simp [hne]
  constructor
  · rintro ⟨hall, hne, hpair⟩
    exact ⟨fun o ho => ⟨(hall o ho).1, (hfree o (hall o ho).1).mpr ⟨(hall o ho).2, hne o ho⟩⟩, hpair⟩
  · rintro ⟨hall, hpair⟩
    exact ⟨fun o ho => ⟨(hall o ho).1, ((hfree o (hall o ho).1).mp (hall o ho).2).1⟩,
      fun o ho => ((hfree o (hall o ho).1).mp (hall o ho).2).2, hpair⟩

theorem registerCommands_ok {commands : CommandTable A} {list : List (Int × A)} (h : Registrable commands list) :
    registerCommands list commands = .ok ((), registered commands list) := by
  induction list generalizing commands with
  | nil => rfl
  | cons entry rest ih =>
    obtain ⟨commandId, handler⟩ := entry
    obtain ⟨⟨hrange, hfree⟩, hrest⟩ := registrable_cons.mp h
    unfold registerCommands
    rw [bind_apply, isr80hRegisterCommand_ok hrange hfree]
    exact ih hrest

theorem registerCommands_panics {commands : CommandTable A} {list : List (Int × A)} (h : ¬ Registrable commands list) :
    ∃ message, registerCommands list commands = .error (.panic message) := by
  induction list generalizing commands with
  | nil => exact absurd ⟨by simp, List.Pairwise.nil⟩ h
  | cons entry rest ih =>
    obtain ⟨commandId, handler⟩ := entry
    unfold registerCommands
    rw [bind_apply]
    by_cases hfirst : InRange commandId ∧ commands commandId.toNat = none
    · rw [isr80hRegisterCommand_ok hfirst.1 hfirst.2]
      exact ih fun hrest => h (registrable_cons.mpr ⟨hfirst, hrest⟩)
    · obtain ⟨message, hpanic⟩ := isr80hRegisterCommand_panics hfirst handler
      exact ⟨message, by rw [hpanic]⟩

/-- The first command in the list that has the number. -/
def listed (list : List (Int × A)) (n : Nat) : Option A :=
  (list.find? fun entry : Int × A => entry.1 = (n : Int)).map Prod.snd

/-- Every command is found under its number, and nothing under a number nobody used. -/
theorem registered_at {commands : CommandTable A} {list : List (Int × A)} (h : Registrable commands list) (n : Nat) :
    registered commands list n = (listed list n).or (commands n) := by
  induction list generalizing commands with
  | nil => rfl
  | cons entry rest ih =>
    obtain ⟨commandId, handler⟩ := entry
    obtain ⟨⟨hrange, _⟩, hrest⟩ := registrable_cons.mp h
    have hstep : registered commands ((commandId, handler) :: rest) =
        registered (Function.update commands commandId.toNat (some handler)) rest := rfl
    rw [hstep, ih hrest]
    unfold listed
    rw [List.find?_cons]
    by_cases hhere : commandId = n
    · have hn : n = commandId.toNat := by omega
      -- nothing in the rest has this number
      have hnone : rest.find? (fun entry : Int × A => entry.1 = (n : Int)) = none := by
        rw [List.find?_eq_none]
        intro other hother hsame
        have hfree := (hrest.1 other hother).2
        have hnumber : other.1.toNat = commandId.toNat := by
          rw [decide_eq_true_eq] at hsame
          rw [hsame, hhere]
        rw [hnumber, Function.update_self] at hfree
        cases hfree
      simp [hnone, hhere]
    · have hne : n ≠ commandId.toNat := by
        unfold InRange at hrange
        omega
      simp [hhere, Function.update_of_ne hne]

/-- **Registering system calls**, in any order and from any table. The kernel panics exactly where a
number is out of range, taken or given twice; else every number is then answered by the command
that was registered under it, and all others as before. -/
theorem registerCommands_table (commands : CommandTable A) (list : List (Int × A)) :
    ((∃ message, registerCommands list commands = .error (.panic message)) ↔ ¬ Registrable commands list) ∧
      ((∃ table, registerCommands list commands = .ok ((), table) ∧ ∀ n : Nat,
        table n = (listed list n).or (commands n)) ↔
        Registrable commands list) := by
  by_cases h : Registrable commands list
  · have hok := registerCommands_ok h
    refine ⟨iff_of_false ?_ (not_not.mpr h), iff_of_true ⟨_, hok, registered_at h⟩ h⟩
    rintro ⟨message, hpanic⟩
    rw [hok] at hpanic
    cases hpanic
  · obtain ⟨message, hpanic⟩ := registerCommands_panics h
    refine ⟨iff_of_true ⟨message, hpanic⟩ h, iff_of_false ?_ h⟩
    rintro ⟨table, hok, _⟩
    rw [hpanic] at hok
    cases hok

theorem registrable_sysCommands : Registrable (fun _ => none) sysCommands := by
  unfold Registrable InRange
  decide

/-- The table after `isr80h_register_commands`. -/
def sysTable : CommandTable SysCommand := registered (fun _ => none) sysCommands

/-- The kernel registers its commands without a panic. -/
theorem isr80hRegisterCommands_eq : isr80hRegisterCommands (fun _ => none) = .ok ((), sysTable) :=
  registerCommands_ok registrable_sysCommands

theorem sysTable_at (n : Nat) : sysTable n = listed sysCommands n := by
  unfold sysTable
  rw [registered_at registrable_sysCommands, Option.or_none]

/-! ### Answering -/

/-- What a command does with memory: its result and what it leaves, or nothing where it goes over to
another task and never returns. -/
abbrev CommandRun (A : Type) := A → Memory → Option (Nat × Memory)

def isr80hHandleCommand (commands : CommandTable A) (run : CommandRun A) (command : Int) (mem : Memory) :
    Option (Nat × Memory) :=
  if command < 0 ∨ command ≥ maxSyscallHandleCommands then some (0, mem)
  else match commands command.toNat with
    | none => some (0, mem)
    | some handler => run handler mem

/-- `isr80h_handler` for the task that is current, with the frame at `frame`. The switches of the page
directory leave the addresses used here where they are. -/
def isr80hHandler (commands : CommandTable A) (run : CommandRun A) (task command frame : Nat) (mem : Memory) :
    Option (Nat × Memory) :=
  let mem := taskSaveState mem task (interruptFrameAt mem frame)
  isr80hHandleCommand commands run (s32 command) mem

/-- `task_get_stack_item`, of the user stack the task was saved with. -/
def taskGetStackItem (mem : Memory) (task idx : Nat) : Nat :=
  read32 mem (u32 ((registersAt mem (taskRegisters task)).esp + 4 * idx))

end BasicOS

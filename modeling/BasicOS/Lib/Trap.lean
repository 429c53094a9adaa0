import BasicOS.Lib.IA32

/-! Interrupts of a 32-bit IA-32 processor.

A program at ring 3 is interrupted by its own `int`, by a fault of its own, or by a device. The
processor looks up a gate, takes the stack that the task state segment names, pushes what it needs
to come back and goes to the gate's address (`Cpu.enter`); `iretd` pops it again (`Cpu.iret`). An
`int` through a gate that ring 3 may not use is a general protection fault, and its saved address is
that of the `int` itself (`Cpu.deliver`).

A handler's own instructions are an `Op` each. What they leave on the stack is described by the
words there, from the lowest address on (`WordsFrom`): pushing a list leaves it in reverse
(`pushAll_spec`), and `popad` takes eight words back (`popad_spec`). -/
namespace BasicOS.Lib.IA32

/-! ### Words in memory -/

/-- The words stand one behind the other from `a` on. -/
def WordsFrom (mem : Memory) (a : Nat) : List Nat → Prop
  | [] => True
  | w :: ws => read32 mem a = w ∧ WordsFrom mem (a + 4) ws

theorem wordsFrom_append {mem : Memory} {a : Nat} {ws vs : List Nat} :
    WordsFrom mem a (ws ++ vs) ↔ WordsFrom mem a ws ∧ WordsFrom mem (a + 4 * ws.length) vs := by
  induction ws generalizing a with
  | nil => simp only [List.nil_append, WordsFrom, List.length_nil, Nat.mul_zero, Nat.add_zero, true_and]
  | cons w ws ih =>
    rw [List.cons_append, WordsFrom, WordsFrom, ih, and_assoc, List.length_cons,
      show a + 4 + 4 * ws.length = a + 4 * (ws.length + 1) by omega]

/-- Words depend on their own bytes only. -/
theorem WordsFrom.congr {mem mem' : Memory} {a : Nat} {ws : List Nat} (h : WordsFrom mem a ws)
    (hsame : ∀ b, a ≤ b → b < a + 4 * ws.length → mem' b = mem b) : WordsFrom mem' a ws := by
  induction ws generalizing a with
  | nil => exact trivial
  | cons w ws ih =>
    rw [List.length_cons] at hsame
    refine ⟨(read32_congr fun b h1 h2 => hsame b h1 (by omega)).trans h.1, ih h.2 fun b h1 h2 => ?_⟩
    exact hsame b (by omega) (by omega)

/-- Words outside the extent a change stays in. -/
theorem WordsFrom.outside {e : Extent} {mem mem' : Memory} {a : Nat} {ws : List Nat} (h : WordsFrom mem a ws)
    (hsame : SameOutside e mem mem') (ha : a + 4 * ws.length ≤ e.start ∨ e.start + e.len ≤ a) : WordsFrom mem' a ws :=
  h.congr fun b h1 h2 => hsame b (by unfold Extent.Holds; omega)

/-! ### Pushing -/

/-- The words pushed in order, so that the last of them is on top. -/
def Machine.pushAll (m : Machine) (ws : List Nat) : Machine := ws.foldl Machine.pushVal m

/-- Pushes change the stack pointer and the words under the old top. -/
theorem pushAll_spec {m : Machine} {ws : List Nat} {top : Nat} (hesp : m.reg .esp = top) (hroom : 4 * ws.length ≤ top)
    (htop : top < 2 ^ 32) (hws : ∀ w ∈ ws, w < 2 ^ 32) :
    ∃ mem, m.pushAll ws = {m with reg := Function.update m.reg .esp (top - 4 * ws.length), mem := mem} ∧
      WordsFrom mem (top - 4 * ws.length) ws.reverse ∧ SameOutside ⟨top - 4 * ws.length, 4 * ws.length⟩ m.mem mem := by
  induction ws generalizing m top with
  | nil =>
    refine ⟨m.mem, ?_, trivial, SameOutside.refl _ _⟩
    rw [List.length_nil, Nat.mul_zero, Nat.sub_zero, ← hesp, Function.update_eq_self]
    rfl
  | cons w ws ih =>
    rw [List.length_cons] at hroom ⊢
    rw [List.forall_mem_cons] at hws
    have hpush : m.pushVal w = {m with reg := Function.update m.reg .esp (top - 4), mem := write32 m.mem (top - 4) w} := by
      unfold Machine.pushVal
      rw [hesp, show (top + 2 ^ 32 - 4) % 2 ^ 32 = top - 4 by omega]
    have hesp' : (m.pushVal w).reg .esp = top - 4 := (pushVal_mem w hesp (by omega) htop).2
    obtain ⟨mem, hall, hwords, hsame⟩ := ih hesp' (by omega) (by omega) hws.2
    rw [show top - 4 - 4 * ws.length = top - 4 * (ws.length + 1) by omega] at hall hwords hsame
    refine ⟨mem, ?_, ?_, ?_⟩
    · refine Eq.trans hall ?_
      rw [hpush, Function.update_idem]
    · rw [List.reverse_cons, wordsFrom_append, List.length_reverse]
      refine ⟨hwords, ?_, trivial⟩
      rw [hsame.read32 (by simp only; omega), hpush, show top - 4 * (ws.length + 1) + 4 * ws.length = top - 4 by omega]
      exact read32_write32 _ _ hws.1
    · intro b hb
      rw [Extent.holds_mk] at hb
      rw [hsame b (by rw [Extent.holds_mk]; omega), hpush]
      exact write32_apart _ _ (by omega)

/-- Pushes of any words move the stack pointer down. -/
theorem pushAll_esp {m : Machine} {ws : List Nat} (hroom : 4 * ws.length ≤ m.reg .esp) (htop : m.reg .esp < 2 ^ 32) :
    (m.pushAll ws).reg .esp = m.reg .esp - 4 * ws.length := by
  induction ws generalizing m with
  | nil => rfl
  | cons w ws ih =>
    rw [List.length_cons] at hroom ⊢
    have hesp : (m.pushVal w).reg .esp = m.reg .esp - 4 := (pushVal_mem w rfl (by omega) htop).2
    refine (ih (by omega) (by omega)).trans ?_
    omega

/-- Words pushed onto others. -/
theorem pushAll_onto {m : Machine} {ws vs : List Nat} {top : Nat} (hesp : m.reg .esp = top)
    (hroom : 4 * ws.length ≤ top) (htop : top < 2 ^ 32) (hws : ∀ w ∈ ws, w < 2 ^ 32) (hvs : WordsFrom m.mem top vs) :
    ∃ mem, m.pushAll ws = {m with reg := Function.update m.reg .esp (top - 4 * ws.length), mem := mem} ∧
      WordsFrom mem (top - 4 * ws.length) (ws.reverse ++ vs) ∧
      SameOutside ⟨top - 4 * ws.length, 4 * ws.length⟩ m.mem mem := by
  obtain ⟨mem, hall, hwords, hsame⟩ := pushAll_spec hesp hroom htop hws
  refine ⟨mem, hall, wordsFrom_append.mpr ⟨hwords, ?_⟩, hsame⟩
  rw [List.length_reverse, Nat.sub_add_cancel hroom]
  exact hvs.outside hsame (.inr (by simp only; omega))

/-! ### The instructions of a handler's stub -/

inductive Op where
  | plain (i : Instr)
  /-- `push dword imm` -/
  | pushImm (v : Nat)
  /-- `mov dst, imm` -/
  | movImm (dst : Reg) (v : Nat)
  /-- `mov dword [addr], src` -/
  | movTo (addr : Nat) (src : Reg)
  /-- `mov dst, dword [addr]` -/
  | movFrom (dst : Reg) (addr : Nat)
  /-- `xor dst, src` -/
  | xor (dst src : Reg)
  | pushad
  | popad
  | cli
deriving Repr

/-- The interrupt flag. -/
def flagIF : Nat := 0x200

/-- The order of `pushad`, with the stack pointer it starts from. -/
def Machine.pushedRegs (m : Machine) : List Nat :=
  [m.reg .eax, m.reg .ecx, m.reg .edx, m.reg .ebx, m.reg .esp, m.reg .ebp, m.reg .esi, m.reg .edi]

/-- `popad`, which passes over the stack pointer. -/
def Machine.popad (m : Machine) : Machine :=
  let word := fun k => read32 m.mem ((m.reg .esp + 4 * k) % 2 ^ 32)
  {m with reg := fun
    | .edi => word 0
    | .esi => word 1
    | .ebp => word 2
    | .esp => (m.reg .esp + 32) % 2 ^ 32
    | .ebx => word 4
    | .edx => word 5
    | .ecx => word 6
    | .eax => word 7}

def execOp (m : Machine) : Op → Machine
  | .plain i => exec m i
  | .pushImm v => m.pushVal v
  | .movImm dst v => m.set dst v
  | .movTo addr src => {m with mem := write32 m.mem addr (m.reg src)}
  | .movFrom dst addr => m.set dst (read32 m.mem addr)
  | .xor dst src =>
    let result := m.reg dst ^^^ m.reg src
    -- the adjust flag is undefined after `xor`
    {m.set dst result with eflags := statusFlags m.eflags result false (m.eflags.testBit 4) false}
  | .pushad => m.pushAll m.pushedRegs
  | .popad => m.popad
  | .cli => {m with eflags := m.eflags &&& (0xFFFFFFFF - flagIF)}

def runOps (m : Machine) (code : List Op) : Machine := code.foldl execOp m

theorem runOps_cons (m : Machine) (op : Op) (code : List Op) : runOps m (op :: code) = runOps (execOp m op) code := rfl

theorem runOps_nil (m : Machine) : runOps m [] = m := rfl

/-- Clearing the interrupt flag before a push or behind it. -/
theorem pushVal_cli (m : Machine) (v : Nat) : (execOp m .cli).pushVal v = execOp (m.pushVal v) .cli := rfl

theorem runOps_append (m : Machine) (code rest : List Op) : runOps m (code ++ rest) = runOps (runOps m code) rest :=
  List.foldl_append

/-- `popad` takes back what `pushad` pushed but for the stack pointer, which it leaves above. -/
theorem popad_spec {m : Machine} {a eax ecx edx ebx esp ebp esi edi : Nat} (hesp : m.reg .esp = a)
    (ha : a + 32 < 2 ^ 32) (hwords : WordsFrom m.mem a [edi, esi, ebp, esp, ebx, edx, ecx, eax]) :
    m.popad = {m with reg := fun
      | .eax => eax | .ecx => ecx | .edx => edx | .ebx => ebx | .esp => a + 32 | .ebp => ebp | .esi => esi
      | .edi => edi} := by
  obtain ⟨hedi, hesi, hebp, _, hebx, hedx, hecx, heax, _⟩ := hwords
  simp only [Nat.add_assoc, Nat.reduceAdd] at hesi hebp hebx hedx hecx heax
  have hat : ∀ k, k < 8 → (a + 4 * k) % 2 ^ 32 = a + 4 * k := fun k hk => by omega
  unfold Machine.popad
  simp only [hesp]
  congr
  funext r
  cases r
  case edi => exact (congrArg _ (hat 0 (by omega))).trans hedi
  case esi => exact (congrArg _ (hat 1 (by omega))).trans hesi
  case ebp => exact (congrArg _ (hat 2 (by omega))).trans hebp
  case ebx => exact (congrArg _ (hat 4 (by omega))).trans hebx
  case edx => exact (congrArg _ (hat 5 (by omega))).trans hedx
  case ecx => exact (congrArg _ (hat 6 (by omega))).trans hecx
  case eax => exact (congrArg _ (hat 7 (by omega))).trans heax
  case esp => exact Nat.mod_eq_of_lt ha

/-! ### The processor -/

/-- A machine with the segments that carry its ring. -/
structure Cpu extends Machine where
  cs : Nat
  ss : Nat

/-- The ring 0 stack of the task state segment. -/
structure RingStack where
  ss0 : Nat
  esp0 : Nat

/-- A gate of the interrupt descriptor table. -/
structure Gate where
  offset : Nat
  selector : Nat
  /-- The five bits of system flag and type. -/
  kind : Nat
  dpl : Nat
  present : Bool
deriving DecidableEq, Repr

/-- A 32-bit interrupt gate. -/
def interruptGate : Nat := 0x0E

/-- The gate in the eight bytes at `a`. -/
def gateAt (mem : Memory) (a : Nat) : Gate where
  offset := read16 mem a + 2 ^ 16 * read16 mem (a + 6)
  selector := read16 mem (a + 2)
  kind := (mem (a + 5)).toNat % 2 ^ 5
  dpl := (mem (a + 5)).toNat / 2 ^ 5 % 2 ^ 2
  present := (mem (a + 5)).toNat.testBit 7

/-- What interrupts a program. -/
inductive Event where
  /-- `int n`, an instruction of `len` bytes. -/
  | soft (n len : Nat)
  /-- A fault of the instruction at `eip`, with the code that goes with it. -/
  | fault (n code : Nat)
  /-- A device, before the instruction at `eip`. -/
  | irq (n : Nat)
deriving DecidableEq, Repr

/-- The exceptions with an error code. -/
def pushesCode (n : Nat) : Bool := n ∈ [8, 10, 11, 12, 13, 14, 17, 21]

def Event.vector : Event → Nat
  | .soft n _ | .fault n _ | .irq n => n

/-- The resume flag, which a fault sets in the flags it saves. -/
def flagRF : Nat := 0x10000

def Event.savedFlags (e : Event) (eflags : Nat) : Nat :=
  match e with
  | .fault _ _ => eflags ||| flagRF
  | _ => eflags

/-- An `int` is over when it is taken, a fault begins its instruction again. -/
def Event.savedEip (e : Event) (eip : Nat) : Nat :=
  match e with
  | .soft _ len => (eip + len) % 2 ^ 32
  | _ => eip

def Event.code : Event → List Nat
  | .fault n code => if pushesCode n then [code] else []
  | _ => []

/-- The flags an interrupt gate clears: trap, interrupt, nested task, resume, virtual 8086. -/
def clearedFlags (eflags : Nat) : Nat := eflags &&& (0xFFFFFFFF - 0x34300)

/-- Through an interrupt gate to ring 0, on the stack of the task state segment. -/
def Cpu.enter (c : Cpu) (stack : RingStack) (gate : Gate) (e : Event) : Cpu where
  toMachine :=
    let switched := {c.toMachine with reg := Function.update c.reg .esp stack.esp0}
    let pushed := switched.pushAll
      ([c.ss, c.reg .esp, e.savedFlags c.eflags, c.cs, e.savedEip c.eip] ++ e.code)
    {pushed with eip := gate.offset, eflags := clearedFlags c.eflags}
  cs := gate.selector
  ss := stack.ss0

/-- The registers and segments have their widths. -/
structure Cpu.Sized (c : Cpu) : Prop where
  reg : ∀ r, c.reg r < 2 ^ 32
  eflags : c.eflags < 2 ^ 32
  eip : c.eip < 2 ^ 32
  cs : c.cs < 2 ^ 16
  ss : c.ss < 2 ^ 16

theorem Event.savedFlags_lt (e : Event) {eflags : Nat} (h : eflags < 2 ^ 32) : e.savedFlags eflags < 2 ^ 32 := by
  cases e with
  | fault n code => exact Nat.or_lt_two_pow h (by decide)
  | soft n len => exact h
  | irq n => exact h

theorem Event.savedEip_lt (e : Event) {eip : Nat} (h : eip < 2 ^ 32) : e.savedEip eip < 2 ^ 32 := by
  cases e with
  | soft n len => exact Nat.mod_lt _ (by decide)
  | fault n code => exact h
  | irq n => exact h

/-- What entering leaves: the way back on the new stack, and nothing else touched. -/
theorem enter_spec {c : Cpu} (hc : c.Sized) {stack : RingStack} {top : Nat} (hstack : stack.esp0 = top)
    (hroom : 24 ≤ top) (htop : top < 2 ^ 32) (gate : Gate) (e : Event) (hcode : ∀ w ∈ e.code, w < 2 ^ 32) :
    ∃ mem, c.enter stack gate e =
        {reg := Function.update c.reg .esp (top - 20 - 4 * e.code.length), seg := c.seg,
          eflags := clearedFlags c.eflags, eip := gate.offset, mem := mem, cs := gate.selector, ss := stack.ss0} ∧
      WordsFrom mem (top - 20 - 4 * e.code.length)
        (e.code ++ [e.savedEip c.eip, c.cs, e.savedFlags c.eflags, c.reg .esp, c.ss]) ∧
      SameOutside ⟨top - 20 - 4 * e.code.length, 20 + 4 * e.code.length⟩ c.mem mem := by
  have hlength : e.code.length ≤ 1 := by
    cases e with
    | fault n code =>
      rw [Event.code]
      split
      · exact le_refl 1
      · exact Nat.zero_le 1
    | soft n len => exact Nat.zero_le 1
    | irq n => exact Nat.zero_le 1
  have hreverse : e.code.reverse = e.code := by
    match e.code, hlength with
    | [], _ => rfl
    | [_], _ => rfl
  have hcs := hc.cs
  have hss := hc.ss
  have hwords : ∀ w ∈ [c.ss, c.reg .esp, e.savedFlags c.eflags, c.cs, e.savedEip c.eip] ++ e.code, w < 2 ^ 32 := by
    intro w hw
    rw [List.mem_append] at hw
    refine hw.elim (fun h => ?_) (hcode w)
    simp only [List.mem_cons, List.not_mem_nil, or_false] at h
    rcases h with rfl | rfl | rfl | rfl | rfl
    · omega
    · exact hc.reg _
    · exact e.savedFlags_lt hc.eflags
    · omega
    · exact e.savedEip_lt hc.eip
  have hswitched : (Function.update c.reg .esp stack.esp0) .esp = top := by rw [Function.update_self, hstack]
  obtain ⟨mem, hall, hat, hsame⟩ := pushAll_spec
    (m := {c.toMachine with reg := Function.update c.reg .esp stack.esp0}) hswitched
    (by rw [List.length_append]; simp only [List.length_cons, List.length_nil]; omega) htop hwords
  rw [List.reverse_append, hreverse] at hat
  have hdepth : top - 4 * ([c.ss, c.reg .esp, e.savedFlags c.eflags, c.cs, e.savedEip c.eip] ++ e.code).length =
      top - 20 - 4 * e.code.length := by
    rw [List.length_append]
    simp only [List.length_cons, List.length_nil]
    omega
  have hlen : 4 * ([c.ss, c.reg .esp, e.savedFlags c.eflags, c.cs, e.savedEip c.eip] ++ e.code).length =
      20 + 4 * e.code.length := by
    rw [List.length_append]
    simp only [List.length_cons, List.length_nil]
    omega
  rw [hdepth] at hall hat hsame
  rw [hlen] at hsame
  refine ⟨mem, ?_, hat, hsame⟩
  unfold Cpu.enter
  simp only [hall, Function.update_idem]

/-- The new stack pointer. -/
theorem enter_esp (c : Cpu) {stack : RingStack} {e : Event} (hroom : 20 + 4 * e.code.length ≤ stack.esp0)
    (htop : stack.esp0 < 2 ^ 32) (gate : Gate) :
    (c.enter stack gate e).reg .esp = stack.esp0 - (20 + 4 * e.code.length) := by
  have hlength : 4 * ([c.ss, c.reg .esp, e.savedFlags c.eflags, c.cs, e.savedEip c.eip] ++ e.code).length =
      20 + 4 * e.code.length := by
    rw [List.length_append]
    simp only [List.length_cons, List.length_nil]
    omega
  have hswitched : (Function.update c.reg .esp stack.esp0) .esp = stack.esp0 := Function.update_self ..
  have hpushed := @pushAll_esp {c.toMachine with reg := Function.update c.reg .esp stack.esp0}
    ([c.ss, c.reg .esp, e.savedFlags c.eflags, c.cs, e.savedEip c.eip] ++ e.code)
    (by rw [hlength]; exact hroom.trans_eq hswitched.symm) (hswitched ▸ htop)
  rw [hlength] at hpushed
  exact hpushed.trans (congrArg (· - _) hswitched)

/-- `iretd` to an outer ring. -/
def Cpu.iret (c : Cpu) : Cpu where
  toMachine :=
    let word := fun k => read32 c.mem ((c.reg .esp + 4 * k) % 2 ^ 32)
    {c.toMachine with eip := word 0, eflags := word 2, reg := Function.update c.reg .esp (word 3)}
  cs := read32 c.mem ((c.reg .esp + 4) % 2 ^ 32) % 2 ^ 16
  ss := read32 c.mem ((c.reg .esp + 16) % 2 ^ 32) % 2 ^ 16

theorem iret_spec {c : Cpu} {a eip cs eflags esp ss : Nat} (hesp : c.reg .esp = a) (ha : a + 20 ≤ 2 ^ 32)
    (hwords : WordsFrom c.mem a [eip, cs, eflags, esp, ss]) (hcs : cs < 2 ^ 16) (hss : ss < 2 ^ 16) :
    c.iret =
      {reg := Function.update c.reg .esp esp, seg := c.seg, eflags := eflags, eip := eip, mem := c.mem, cs := cs,
        ss := ss} := by
  obtain ⟨heip, hcs', heflags, hesp', hss', _⟩ := hwords
  simp only [Nat.add_assoc, Nat.reduceAdd] at heflags hesp' hss'
  have hat : ∀ k, k < 5 → (a + 4 * k) % 2 ^ 32 = a + 4 * k := fun k hk => by omega
  unfold Cpu.iret
  simp only [hesp, hat 2 (by omega), hat 3 (by omega), Nat.mul_zero, Nat.add_zero, Nat.reduceMul]
  rw [show a % 2 ^ 32 = a by omega, show (a + 4) % 2 ^ 32 = a + 4 by omega,
    show (a + 16) % 2 ^ 32 = a + 16 by omega, heip, hcs', heflags, hesp', hss', Nat.mod_eq_of_lt hcs,
    Nat.mod_eq_of_lt hss]

/-- The table of gates the processor has been told of. -/
structure Idtr where
  base : Nat
  limit : Nat

/-- An event at ring 3 looks its gate up: either the gate is entered or the event is a fault of
another vector, whose code names the gate and has bit 0 set unless an `int` is the cause. Gates of
other kinds are left out. -/
def Cpu.attempt (c : Cpu) (idtr : Idtr) (stack : RingStack) (e : Event) : Option (Event ⊕ Cpu) :=
  let gate := gateAt c.mem (idtr.base + 8 * e.vector)
  let external := match e with
    | .soft _ _ => 0
    | _ => 1
  let code := 8 * e.vector + 2 + external
  if idtr.limit < 8 * e.vector + 7 then some (.inl (.fault 13 code))
  else if gate.kind ≠ interruptGate then none
  else if gate.dpl < 3 ∧ external = 0 then some (.inl (.fault 13 code))
  else if !gate.present then some (.inl (.fault 11 code))
  else some (.inr (c.enter stack gate e))

/-- A fault on the way of an `int` or a device is delivered in its place; one on the way of a fault,
which can be a double fault, is left out. -/
def Cpu.deliver (c : Cpu) (idtr : Idtr) (stack : RingStack) (e : Event) : Option (Event × Cpu) :=
  match c.attempt idtr stack e, e with
  | some (.inr entered), _ => some (e, entered)
  | some (.inl _), .fault _ _ => none
  | some (.inl e'), _ => match c.attempt idtr stack e' with
    | some (.inr entered) => some (e', entered)
    | _ => none
  | none, _ => none

end BasicOS.Lib.IA32

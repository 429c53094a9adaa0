import BasicOS.Lib.Memory
import Mathlib.Logic.Function.Basic

/-! A fragment of 32-bit IA-32.

The instructions a hand-written return path uses: moves between registers and memory,
pushes and pops, the flag and segment moves and the arithmetic on the stack pointer.
`exec` is one instruction and `run` a straight line of them; a `call` pushes its return
address and its callee's code follows in the list, up to a `ret` that pops an address into `eip`.
Registers wrap at 32 bits. -/
namespace BasicOS.Lib.IA32

inductive Reg where
  | eax | ecx | edx | ebx | esp | ebp | esi | edi
deriving DecidableEq, Repr

inductive Seg where
  | ds | es | fs | gs
deriving DecidableEq, Repr

structure Machine where
  reg : Reg → Nat
  seg : Seg → Nat
  eflags : Nat
  eip : Nat
  mem : Memory

inductive Instr where
  /-- `mov dst, src` -/
  | mov (dst src : Reg)
  /-- `mov dst, [base + off]` -/
  | load (dst base : Reg) (off : Nat)
  /-- `mov` of the low 16 bits of `dst` from `[base + off]` -/
  | load16 (dst base : Reg) (off : Nat)
  /-- `mov seg, src`, from the low 16 bits of `src` -/
  | movSeg (seg : Seg) (src : Reg)
  /-- `push src` -/
  | push (src : Reg)
  /-- `push dword [base + off]` -/
  | pushMem (base : Reg) (off : Nat)
  /-- `pushf` -/
  | pushf
  /-- `pop dst` -/
  | pop (dst : Reg)
  /-- `or dst, imm` -/
  | or (dst : Reg) (imm : Nat)
  /-- `add dst, imm` -/
  | add (dst : Reg) (imm : Nat)
  /-- `call`, with the address of the instruction after it -/
  | call (after : Nat)
  /-- `ret` -/
  | ret
deriving Repr

/-! ### The machine -/

def Machine.set (m : Machine) (r : Reg) (v : Nat) : Machine := {m with reg := Function.update m.reg r v}

def Machine.pushVal (m : Machine) (v : Nat) : Machine :=
  let esp := (m.reg .esp + 2 ^ 32 - 4) % 2 ^ 32
  {m with reg := Function.update m.reg .esp esp, mem := write32 m.mem esp v}

def Machine.popped (m : Machine) : Machine :=
  {m with reg := Function.update m.reg .esp ((m.reg .esp + 4) % 2 ^ 32)}

/-- The word at the top of the stack. -/
def Machine.top (m : Machine) : Nat := read32 m.mem (m.reg .esp)

def Machine.at (m : Machine) (base : Reg) (off : Nat) : Nat := (m.reg base + off) % 2 ^ 32

/-- The status flags after a result: carry, parity, adjust, zero, sign, overflow. -/
def statusFlags (eflags result : Nat) (carry adjust overflow : Bool) : Nat :=
  let bit := fun (mask : Nat) (b : Bool) (fl : Nat) =>
    if b then fl ||| mask else fl &&& (0xFFFFFFFF - mask)
  let parity := ((List.range 8).filter (result.testBit ·)).length % 2 == 0
  bit 0x1 carry (bit 0x4 parity (bit 0x10 adjust (bit 0x40 (result == 0)
    (bit 0x80 (result.testBit 31) (bit 0x800 overflow eflags)))))

def exec (m : Machine) : Instr → Machine
  | .mov dst src => m.set dst (m.reg src)
  | .load dst base off => m.set dst (read32 m.mem (m.at base off))
  | .load16 dst base off => m.set dst (m.reg dst / 2 ^ 16 * 2 ^ 16 + read16 m.mem (m.at base off))
  | .movSeg seg src => {m with seg := Function.update m.seg seg (m.reg src % 2 ^ 16)}
  | .push src => m.pushVal (m.reg src)
  | .pushMem base off => m.pushVal (read32 m.mem (m.at base off))
  | .pushf => m.pushVal (m.eflags &&& 0x00FCFFFF)
  | .pop dst => m.popped.set dst m.top
  | .or dst imm =>
    let result := m.reg dst ||| imm
    -- the adjust flag is undefined after `or`
    {m.set dst result with
      eflags := statusFlags m.eflags result false (m.eflags.testBit 4) false}
  | .add dst imm =>
    let a := m.reg dst
    let result := (a + imm) % 2 ^ 32
    {m.set dst result with
      eflags := statusFlags m.eflags result (2 ^ 32 ≤ a + imm) (16 ≤ a % 16 + imm % 16)
        (a.testBit 31 == imm.testBit 31 && result.testBit 31 != a.testBit 31)}
  | .call after => m.pushVal after
  | .ret => {m.popped with eip := m.top}

def run (m : Machine) (code : List Instr) : Machine := code.foldl exec m

theorem run_nil (m : Machine) : run m [] = m := rfl

theorem run_cons (m : Machine) (i : Instr) (code : List Instr) : run m (i :: code) = run (exec m i) code := rfl

theorem run_append (m : Machine) (code rest : List Instr) : run m (code ++ rest) = run (run m code) rest :=
  List.foldl_append

/-! ### Registers and the stack -/

@[simp] theorem set_mem (m : Machine) (r : Reg) (v : Nat) : (m.set r v).mem = m.mem := rfl

@[simp] theorem popped_mem (m : Machine) : m.popped.mem = m.mem := rfl

theorem pushVal_reg (m : Machine) (v : Nat) (q : Reg) :
    (m.pushVal v).reg q = if q = .esp then (m.reg .esp + 2 ^ 32 - 4) % 2 ^ 32 else m.reg q :=
  Function.update_apply ..

/-- A push with room below writes the word under the old top. -/
theorem pushVal_mem {m : Machine} {esp : Nat} (v : Nat) (hesp : m.reg .esp = esp) (hlow : 4 ≤ esp)
    (hhigh : esp < 2 ^ 32) : (m.pushVal v).mem = write32 m.mem (esp - 4) v ∧ (m.pushVal v).reg .esp = esp - 4 := by
  have haddr : (esp + 2 ^ 32 - 4) % 2 ^ 32 = esp - 4 := by omega
  constructor
  · simp only [Machine.pushVal, hesp, haddr]
  · rw [pushVal_reg, if_pos rfl, hesp, haddr]

end BasicOS.Lib.IA32

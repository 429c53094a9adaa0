import BasicOS.Lib.Trap

/-! The interrupt descriptor table, as `idt_init` fills it.

Every vector gets a gate to its own stub in `interrupts.asm`, for ring 0 only; vector 0x80 is then
set again, to the system calls' wrapper and open to ring 3. What the processor finds at a vector is
what `idt_set` was told (`gateAt_idtInit`), so a program enters the kernel with `int 0x80` and with
no other `int`: any other is a general protection fault at that instruction
(`deliver_ready`). -/
namespace BasicOS
open Lib IA32

/-! ### Filling the table -/

def idtMaxEntries : Nat := 256

def kernelCodeSelector : Nat := 0x08

def interrupt32BitInterruptGateKernelSpace : Nat := 0x8E

def interrupt32BitInterruptGateUserSpace : Nat := 0xEE

/-- The eight bytes of a `struct IDT_Descriptor`. -/
def descriptorBytes (addr selector typeAttr : Nat) : List UInt8 :=
  [UInt8.ofNat addr, UInt8.ofNat (addr / 2 ^ 8),  -- low_offset
    UInt8.ofNat selector, UInt8.ofNat (selector / 2 ^ 8),
    0x00, UInt8.ofNat typeAttr,
    UInt8.ofNat (addr / 2 ^ 16), UInt8.ofNat (addr / 2 ^ 24)]  -- high_offset

/-- `idt_set`, with the table at `descriptors`. -/
def idtSet (mem : Memory) (descriptors interruptNumber addr selector typeAttr : Nat) : Memory :=
  store mem (descriptors + 8 * interruptNumber) (descriptorBytes addr selector typeAttr)

/-- `idt_init` as far as it writes the table: `pointerTable` is `interrupt_pointer_table`. -/
def idtInit (mem : Memory) (descriptors : Nat) (pointerTable : Nat → Nat) (isr80hWrapper : Nat) : Memory :=
  let mem := fill mem descriptors (8 * idtMaxEntries) 0
  let mem := (List.range idtMaxEntries).foldl (fun mem i =>
    idtSet mem descriptors i (pointerTable i) kernelCodeSelector interrupt32BitInterruptGateKernelSpace) mem
  idtSet mem descriptors 0x80 isr80hWrapper kernelCodeSelector interrupt32BitInterruptGateUserSpace

/-- What `idtr_descriptor` tells the processor. -/
def idtrDescriptor (descriptors : Nat) : Idtr := ⟨descriptors, 8 * idtMaxEntries - 1⟩

/-! ### Reading it -/

/-- The gate of a vector. -/
def readyGate (pointerTable : Nat → Nat) (isr80hWrapper n : Nat) : Gate :=
  if n = 0x80 then ⟨isr80hWrapper, kernelCodeSelector, interruptGate, 3, true⟩
  else ⟨pointerTable n, kernelCodeSelector, interruptGate, 0, true⟩

/-- The table in memory has the gates. -/
def IdtReady (mem : Memory) (descriptors : Nat) (pointerTable : Nat → Nat) (isr80hWrapper : Nat) : Prop :=
  ∀ n < idtMaxEntries, gateAt mem (descriptors + 8 * n) = readyGate pointerTable isr80hWrapper n

theorem gateAt_congr {mem mem' : Memory} {a : Nat} (h : ∀ b, a ≤ b → b < a + 8 → mem' b = mem b) :
    gateAt mem' a = gateAt mem a := by
  have hbyte : ∀ k, k < 8 → mem' (a + k) = mem (a + k) := fun k hk => h _ (by omega) (by omega)
  have hbyte0 := hbyte 0 (by omega)
  rw [Nat.add_zero] at hbyte0
  simp only [gateAt, read16, Nat.add_assoc, Nat.reduceAdd, hbyte0, hbyte 1 (by omega), hbyte 2 (by omega),
    hbyte 3 (by omega), hbyte 5 (by omega), hbyte 6 (by omega), hbyte 7 (by omega)]

/-- The processor finds what `idt_set` was told. -/
theorem gateAt_idtSet (mem : Memory) (descriptors n : Nat) {addr selector typeAttr : Nat} (haddr : addr < 2 ^ 32)
    (hselector : selector < 2 ^ 16) (htype : typeAttr < 2 ^ 8) :
    gateAt (idtSet mem descriptors n addr selector typeAttr) (descriptors + 8 * n) =
      ⟨addr, selector, typeAttr % 2 ^ 5, typeAttr / 2 ^ 5 % 2 ^ 2, typeAttr.testBit 7⟩ := by
  have hbyte : ∀ k, k < 8 → idtSet mem descriptors n addr selector typeAttr (descriptors + 8 * n + k) =
      (descriptorBytes addr selector typeAttr).getD k 0 := fun k hk => store_at _ _ hk
  have hbyte0 := hbyte 0 (by omega)
  rw [Nat.add_zero] at hbyte0
  simp only [gateAt, read16, Nat.add_assoc, Nat.reduceAdd, Gate.mk.injEq] at hbyte ⊢
  rw [hbyte0, hbyte 1 (by omega), hbyte 2 (by omega), hbyte 3 (by omega), hbyte 5 (by omega), hbyte 6 (by omega),
    hbyte 7 (by omega)]
  simp only [descriptorBytes, List.getD_cons_zero, List.getD_cons_succ, UInt8.toNat_ofNat']
  rw [Nat.mod_eq_of_lt htype]
  refine ⟨?_, ?_, rfl, rfl, rfl⟩ <;> omega

/-- Setting a gate leaves the others. -/
theorem gateAt_idtSet_ne (mem : Memory) (descriptors : Nat) {n k : Nat} (hne : k ≠ n) (addr selector typeAttr : Nat) :
    gateAt (idtSet mem descriptors n addr selector typeAttr) (descriptors + 8 * k) =
      gateAt mem (descriptors + 8 * k) := by
  refine gateAt_congr fun b h1 h2 => sameOutside_store mem (descriptors + 8 * n) _ b ?_
  rw [Extent.holds_mk]
  simp only [descriptorBytes, List.length_cons, List.length_nil]
  omega

/-- The loop over the first vectors. -/
theorem gateAt_idtSets (mem : Memory) (descriptors : Nat) {pointerTable : Nat → Nat} (total : Nat)
    (htable : ∀ n < total, pointerTable n < 2 ^ 32) {n : Nat} (hn : n < total) :
    gateAt ((List.range total).foldl (fun mem i => idtSet mem descriptors i (pointerTable i) kernelCodeSelector
      interrupt32BitInterruptGateKernelSpace) mem) (descriptors + 8 * n) =
      ⟨pointerTable n, kernelCodeSelector, interruptGate, 0, true⟩ := by
  induction total with
  | zero => omega
  | succ total ih =>
    rw [List.range_succ, List.foldl_append, List.foldl_cons, List.foldl_nil]
    by_cases hlast : n = total
    · rw [hlast, gateAt_idtSet _ _ _ (htable total (by omega)) (by decide) (by decide)]
      rfl
    · rw [gateAt_idtSet_ne _ _ hlast]
      exact ih (fun k hk => htable k (by omega)) (by omega)

/-- **The table `idt_init` leaves**, whatever stood in memory before. -/
theorem gateAt_idtInit (mem : Memory) (descriptors : Nat) {pointerTable : Nat → Nat} {isr80hWrapper : Nat}
    (htable : ∀ n < idtMaxEntries, pointerTable n < 2 ^ 32) (hwrapper : isr80hWrapper < 2 ^ 32) :
    IdtReady (idtInit mem descriptors pointerTable isr80hWrapper) descriptors pointerTable isr80hWrapper := by
  intro n hn
  unfold idtInit readyGate
  by_cases hcall : n = 0x80
  · rw [if_pos hcall, hcall, gateAt_idtSet _ _ _ hwrapper (by decide) (by decide)]
    rfl
  · rw [if_neg hcall, gateAt_idtSet_ne _ _ hcall, gateAt_idtSets _ _ _ htable hn]

/-! ### Entering -/

/-- What can happen to a program: an `int` of any vector, a fault, a request of the two interrupt
controllers, which `kernel.asm` has told to use the vectors from 0x20 on. -/
def Possible : Event → Prop
  | .soft n _ => n < idtMaxEntries
  | .fault n code => n < 0x20 ∧ code < 2 ^ 32
  | .irq n => 0x20 ≤ n ∧ n < 0x30

/-- What the kernel gets to see of it. -/
def seenAs : Event → Event
  | .soft n len => if n = 0x80 then .soft n len else .fault 13 (8 * n + 2)
  | .fault n code => .fault n code
  | .irq n => .irq n

theorem possible_vector {e : Event} (he : Possible e) : e.vector < idtMaxEntries := by
  cases e with
  | soft n len => exact he
  | fault n code => exact Nat.lt_trans he.1 (by decide)
  | irq n => exact Nat.lt_trans he.2 (by decide)

theorem Possible.seenAs {e : Event} (he : Possible e) : Possible (seenAs e) := by
  cases e with
  | soft n len =>
    unfold BasicOS.seenAs
    simp only
    split
    · exact he
    · unfold Possible idtMaxEntries at *
      exact ⟨by decide, by omega⟩
  | fault n code => exact he
  | irq n => exact he

variable {c : Cpu} {descriptors isr80hWrapper : Nat} {pointerTable : Nat → Nat}

/-- A gate that is looked up with enough privilege is entered. -/
theorem attempt_ready (hready : IdtReady c.mem descriptors pointerTable isr80hWrapper) (stack : RingStack) {e : Event}
    (he : Possible e) (hopen : ∀ n len, e = .soft n len → n = 0x80) :
    c.attempt (idtrDescriptor descriptors) stack e =
      some (.inr (c.enter stack (readyGate pointerTable isr80hWrapper e.vector) e)) := by
  have hvector := possible_vector he
  have hgate := hready e.vector hvector
  unfold idtMaxEntries at hvector
  unfold Cpu.attempt
  rw [show (idtrDescriptor descriptors).base = descriptors from rfl, hgate]
  have hlimit : ¬ (idtrDescriptor descriptors).limit < 8 * e.vector + 7 := by
    simp only [idtrDescriptor, idtMaxEntries]
    omega
  have hkind : (readyGate pointerTable isr80hWrapper e.vector).kind = interruptGate := by
    unfold readyGate
    split <;> rfl
  have hpresent : (readyGate pointerTable isr80hWrapper e.vector).present = true := by
    unfold readyGate
    split <;> rfl
  simp only [if_neg hlimit, hkind, hpresent, ne_eq, not_true_eq_false, if_false, Bool.not_true, Bool.false_eq_true]
  cases e with
  | soft n len =>
    obtain rfl := hopen n len rfl
    rfl
  | fault n code => exact if_neg fun h => Nat.one_ne_zero h.2
  | irq n => exact if_neg fun h => Nat.one_ne_zero h.2

/-- Any other `int` is refused at its gate. -/
theorem attempt_closed (hready : IdtReady c.mem descriptors pointerTable isr80hWrapper) (stack : RingStack) {n : Nat}
    (hn : n < idtMaxEntries) (hclosed : n ≠ 0x80) (len : Nat) :
    c.attempt (idtrDescriptor descriptors) stack (.soft n len) = some (.inl (.fault 13 (8 * n + 2))) := by
  have hgate := hready n hn
  unfold readyGate at hgate
  rw [if_neg hclosed] at hgate
  unfold Cpu.attempt
  simp only [idtrDescriptor, Event.vector, hgate, idtMaxEntries] at hn ⊢
  rw [if_neg (by omega)]
  rfl

/-- **How a program gets into the kernel**: a fault and a device by their own stubs, `int 0x80` by the
wrapper, and any other `int` as a general protection fault that names the gate. -/
theorem deliver_ready (hready : IdtReady c.mem descriptors pointerTable isr80hWrapper) (stack : RingStack) {e : Event}
    (he : Possible e) :
    c.deliver (idtrDescriptor descriptors) stack e =
      some (seenAs e, c.enter stack (readyGate pointerTable isr80hWrapper (seenAs e).vector) (seenAs e)) := by
  have hseen := he.seenAs
  unfold Cpu.deliver
  cases e with
  | fault n code => rw [attempt_ready hready stack he (by simp)]; rfl
  | irq n => rw [attempt_ready hready stack he (by simp)]; rfl
  | soft n len =>
    by_cases hcall : n = 0x80
    · rw [attempt_ready hready stack he (by rintro _ _ ⟨⟩; exact hcall)]
      simp only [seenAs, if_pos hcall]
    · simp only [seenAs, if_neg hcall] at hseen ⊢
      rw [attempt_closed hready stack he hcall]
      simp only
      rw [attempt_ready hready stack hseen (by simp)]

/-- **What `idt_init` lets in.** From the table it leaves, whatever memory held before and whatever else
changes later, every event of a program gets to a stub, and an `int` that is not a system call only
as a general protection fault. -/
theorem idtInit_deliver (mem : Memory) (htable : ∀ n < idtMaxEntries, pointerTable n < 2 ^ 32)
    (hwrapper : isr80hWrapper < 2 ^ 32)
    (hkept : ∀ b, descriptors ≤ b → b < descriptors + 8 * idtMaxEntries →
      c.mem b = idtInit mem descriptors pointerTable isr80hWrapper b) (stack : RingStack) {e : Event} (he : Possible e) :
    ∃ entered, c.deliver (idtrDescriptor descriptors) stack e = some (seenAs e, entered) ∧
      entered.eip = (if (seenAs e).vector = 0x80 then isr80hWrapper else pointerTable (seenAs e).vector) ∧
      entered.cs = kernelCodeSelector ∧ entered.ss = stack.ss0 ∧
      (20 + 4 * (seenAs e).code.length ≤ stack.esp0 → stack.esp0 < 2 ^ 32 →
        entered.reg .esp = stack.esp0 - (20 + 4 * (seenAs e).code.length)) ∧ entered.eflags.testBit 9 = false := by
  have hready : IdtReady c.mem descriptors pointerTable isr80hWrapper := by
    intro n hn
    refine (gateAt_congr fun b h1 h2 => hkept b (by omega) (by omega)).trans ?_
    exact gateAt_idtInit mem descriptors htable hwrapper n hn
  refine ⟨_, deliver_ready hready stack he, ?_, ?_, rfl, fun hroom htop => enter_esp c hroom htop _, ?_⟩
  · show (readyGate pointerTable isr80hWrapper (seenAs e).vector).offset = _
    unfold readyGate
    split <;> rfl
  · show (readyGate pointerTable isr80hWrapper (seenAs e).vector).selector = _
    unfold readyGate
    split <;> rfl
  · show (clearedFlags c.eflags).testBit 9 = false
    unfold clearedFlags
    rw [Nat.testBit_and, show Nat.testBit (0xFFFFFFFF - 0x34300) 9 = false by decide, Bool.and_false]

/-- A program at its first instruction, on a machine whose kernel has set up its table. -/
def freshProgram : Cpu where
  reg := fun
    | .esp => 0x3FF000
    | _ => 0
  seg := fun _ => 0x23
  eflags := 0x202
  eip := 0x400000
  mem := idtInit (fun _ => 0) 0x110000 (fun n => 0x120000 + 16 * n) 0x130000
  cs := 0x1B
  ss := 0x23

theorem freshProgram_table : ∀ n < idtMaxEntries, 0x120000 + 16 * n < 2 ^ 32 := by
  intro n hn
  unfold idtMaxEntries at hn
  omega

theorem idtInit_deliver_breakpoint :
    ∃ entered, freshProgram.deliver (idtrDescriptor 0x110000) ⟨0x10, 0x600000⟩ (.soft 3 1) =
        some (.fault 13 26, entered) ∧ entered.eip = 0x1200D0 ∧ entered.reg .esp = 0x5FFFE8 := by
  obtain ⟨entered, hdeliver, heip, _, _, hesp, _⟩ := idtInit_deliver (c := freshProgram) (fun _ => 0) freshProgram_table
    (show 0x130000 < 2 ^ 32 by decide) (fun _ _ _ => rfl) ⟨0x10, 0x600000⟩
    (e := .soft 3 1) (show 3 < idtMaxEntries by decide)
  exact ⟨entered, hdeliver, heip, hesp (by decide) (by decide)⟩

end BasicOS

import BasicOS.Task.Switch

/-! The context switch as a round trip.

Between the interrupt that saves a task and the `task_return` that resumes it, other
tasks are saved and run (`SwitchRun`). Nothing in that touches the task's saved
registers, so `task_return` finds the frame. What it hands to `iretd` is the frame but
for two words (`iretRegisters_taskReturn`): `restore_general_purpose_registers` pops the
caller's `ebp` over the one it has just loaded, and the flags pushed are the kernel's,
not the task's. `contextSwitch_iff` says when the task cannot tell. -/
namespace BasicOS
open Lib IA32

/-! ### Saving -/

/-- The words of a frame are 32 bits wide. -/
structure InterruptFrame.Words (f : InterruptFrame) : Prop where
  edi : f.edi < 2 ^ 32
  esi : f.esi < 2 ^ 32
  ebp : f.ebp < 2 ^ 32
  ebx : f.ebx < 2 ^ 32
  edx : f.edx < 2 ^ 32
  ecx : f.ecx < 2 ^ 32
  eax : f.eax < 2 ^ 32
  eip : f.eip < 2 ^ 32
  cs : f.cs < 2 ^ 32
  eflags : f.eflags < 2 ^ 32
  esp : f.esp < 2 ^ 32
  ss : f.ss < 2 ^ 32

/-- The registers a program had when it was interrupted. -/
def InterruptFrame.registers (f : InterruptFrame) : Registers :=
  ⟨f.edi, f.esi, f.ebp, f.ebx, f.edx, f.ecx, f.eax, f.eip, f.cs, f.eflags, f.esp, f.ss⟩

theorem registersAt_congr {mem mem' : Memory} {regs : Nat} (h : ∀ b, regs ≤ b → b < regs + 48 → mem' b = mem b) :
    registersAt mem' regs = registersAt mem regs := by
  have hword : ∀ off, off + 4 ≤ 48 → read32 mem' (regs + off) = read32 mem (regs + off) := fun off hoff =>
    read32_congr fun b h1 h2 => h b (by omega) (by omega)
  have h0 := hword 0 (by omega)
  rw [Nat.add_zero] at h0
  simp only [registersAt, Registers.mk.injEq]
  exact ⟨h0, hword _ (by omega), hword _ (by omega), hword _ (by omega), hword _ (by omega), hword _ (by omega),
    hword _ (by omega), hword _ (by omega), hword _ (by omega), hword _ (by omega), hword _ (by omega),
    hword _ (by omega)⟩

/-- The structure holds the frame afterwards. -/
theorem registersAt_taskSaveState (mem : Memory) (task : Nat) {f : InterruptFrame} (h : f.Words) :
    registersAt (taskSaveState mem task f) (taskRegisters task) = f.registers := by
  obtain ⟨_, _, _, _, _, _, _, _, _, _, _, _⟩ := h
  simp (disch := omega) only [registersAt, taskSaveState, InterruptFrame.registers, read32_write32_apart,
    read32_write32]

/-- Saving a task writes its `struct registers` only. -/
theorem sameOutside_taskSaveState (mem : Memory) (task : Nat) (f : InterruptFrame) :
    SameOutside ⟨taskRegisters task, 48⟩ mem (taskSaveState mem task f) := by
  intro b hb
  rw [Extent.holds_mk] at hb
  unfold taskSaveState
  have hword : ∀ (m : Memory) off v, off + 4 ≤ 48 → write32 m (taskRegisters task + off) v b = m b :=
    fun m off v hoff =>
    sameOutside_write32 m _ v b (by rw [Extent.holds_mk]; omega)
  have h0 : ∀ (m : Memory) v, write32 m (taskRegisters task) v b = m b := fun m v => hword m 0 v (by omega)
  rw [hword _ 4 _ (by omega), hword _ 16 _ (by omega), h0, hword _ 20 _ (by omega), hword _ 12 _ (by omega),
    hword _ 8 _ (by omega), hword _ 24 _ (by omega), hword _ 44 _ (by omega), hword _ 40 _ (by omega),
    hword _ 36 _ (by omega), hword _ 32 _ (by omega), hword _ 28 _ (by omega)]

/-! ### Returning -/

/-- `&&&` with a mask stays below it, `|||` with a 32-bit word below 32 bits. -/
theorem returnFlags_lt (eflags : Nat) : (eflags &&& 0x00FCFFFF) ||| 0x200 < 2 ^ 32 :=
  Nat.or_lt_two_pow (Nat.lt_of_le_of_lt Nat.and_le_right (by decide)) (by decide)

/-- The stack pointer after one more push. -/
theorem pushed_address {esp : Nat} (k : Nat) (hk : k + 4 ≤ esp) (hesp : esp ≤ 2 ^ 32) :
    (esp - k + 2 ^ 32 - 4) % 2 ^ 32 = esp - (k + 4) := by
  rw [show esp - k + 2 ^ 32 - 4 = esp - (k + 4) + 2 ^ 32 by omega, Nat.add_mod_right]
  exact Nat.mod_eq_of_lt (by omega)

/-- Five words written below `esp` can be read there, and nothing else changes. -/
theorem returnFrame_words (mem : Memory) {esp ss sp eflags cs eip : Nat} (hlow : 20 ≤ esp) (hss : ss < 2 ^ 32)
    (hsp : sp < 2 ^ 32) (heflags : eflags < 2 ^ 32) (hcs : cs < 2 ^ 32) (heip : eip < 2 ^ 32) :
    let t := write32 (write32 (write32 (write32 (write32 mem (esp - 4) ss) (esp - 8) sp) (esp - 12) eflags)
      (esp - 16) cs) (esp - 20) eip
    (read32 t (esp - 20) = eip ∧ read32 t (esp - 16) = cs ∧ read32 t (esp - 12) = eflags ∧ read32 t (esp - 8) = sp ∧
      read32 t (esp - 4) = ss) ∧ SameOutside ⟨esp - 20, 20⟩ mem t := by
  -- the words are counted from the lowest
  obtain ⟨low, rfl⟩ : ∃ low, esp = low + 20 := ⟨esp - 20, by omega⟩
  clear hlow
  rw [show low + 20 - 4 = low + 16 by omega, show low + 20 - 8 = low + 12 by omega,
    show low + 20 - 12 = low + 8 by omega, show low + 20 - 16 = low + 4 by omega, Nat.add_sub_cancel]
  have hbelow : ∀ (m : Memory) (v off : Nat), 4 ≤ off → read32 (write32 m low v) (low + off) = read32 m (low + off) :=
    fun m v off h => read32_write32_apart m v (.inr (by omega))
  have hfield : ∀ (m : Memory) (v a b : Nat), a + 4 ≤ b → read32 (write32 m (low + a) v) (low + b) = read32 m (low + b) :=
    fun m v a b h => read32_write32_apart m v (.inr (by omega))
  refine ⟨⟨read32_write32 _ _ heip, ?_, ?_, ?_, ?_⟩, fun b hb => ?_⟩
  · rw [hbelow _ _ 4 (by decide)]
    exact read32_write32 _ _ hcs
  · rw [hbelow _ _ 8 (by decide), hfield _ _ 4 8 (by decide)]
    exact read32_write32 _ _ heflags
  · rw [hbelow _ _ 12 (by decide), hfield _ _ 4 12 (by decide), hfield _ _ 8 12 (by decide)]
    exact read32_write32 _ _ hsp
  · rw [hbelow _ _ 16 (by decide), hfield _ _ 4 16 (by decide), hfield _ _ 8 16 (by decide),
      hfield _ _ 12 16 (by decide)]
    exact read32_write32 _ _ hss
  · rw [Extent.holds_mk] at hb
    simp (disch := omega) only [write32_apart]

/-- The five words `iretd` pops, on the stack below `esp`. -/
theorem pushReturnFrame_spec {m : Machine} {esp regs : Nat} (hesp : m.reg .esp = esp) (hlow : 20 ≤ esp)
    (harg : read32 m.mem (esp + 4) = regs) (hstack : esp + 8 ≤ regs) (hregs : regs + 48 ≤ 2 ^ 32) :
    let t := run m pushReturnFrame
    t.reg .ebp = esp ∧ t.reg .ebx = regs ∧ t.reg .esp = esp - 20 ∧ SameOutside ⟨esp - 20, 20⟩ m.mem t.mem ∧
      read32 t.mem (esp - 20) = read32 m.mem (regs + 28) ∧ read32 t.mem (esp - 16) = read32 m.mem (regs + 32) ∧
      read32 t.mem (esp - 12) = ((m.eflags &&& 0x00FCFFFF) ||| 0x200) ∧
      read32 t.mem (esp - 8) = read32 m.mem (regs + 40) ∧ read32 t.mem (esp - 4) = read32 m.mem (regs + 44) := by
  have harg' : (esp + 4) % 2 ^ 32 = esp + 4 := by omega
  have hat : ∀ off, off ≤ 44 → (regs + off) % 2 ^ 32 = regs + off := fun off h => by omega
  have hesp' : esp ≤ 2 ^ 32 := by omega
  have h1 := pushed_address 0 (by omega) hesp'
  have h2 := pushed_address 4 (by omega) hesp'
  have h3 := pushed_address 8 (by omega) hesp'
  have h3' : (esp - 12 + 4) % 2 ^ 32 = esp - 8 := by omega
  have h4 := pushed_address 12 (by omega) hesp'
  have h5 := pushed_address 16 (by omega) hesp'
  simp only [Nat.sub_zero, Nat.reduceAdd] at h1 h2 h3 h4 h5
  have habove : ∀ (mem : Memory) (v k off : Nat), 4 ≤ k → k ≤ 20 → read32 (write32 mem (esp - k) v) (regs + off) =
      read32 mem (regs + off) := fun mem v k off hk hk' => read32_write32_apart mem v (.inr (by omega))
  have hflags : m.eflags &&& 0x00FCFFFF < 2 ^ 32 := Nat.lt_of_le_of_lt Nat.and_le_right (by decide)
  have hmem : (run m pushReturnFrame).mem =
      write32 (write32 (write32 (write32 (write32 m.mem (esp - 4) (read32 m.mem (regs + 44)))
        (esp - 8) (read32 m.mem (regs + 40))) (esp - 12) ((m.eflags &&& 0x00FCFFFF) ||| 0x200))
        (esp - 16) (read32 m.mem (regs + 32))) (esp - 20) (read32 m.mem (regs + 28)) := by
    simp only [pushReturnFrame, run_cons, run_nil, exec, Machine.at, Machine.top, Machine.pushVal, Machine.popped,
      Machine.set, Function.update_apply, reduceCtorEq, if_true, if_false, hesp, harg, harg', hat 44 (by omega),
      hat 40 (by omega), hat 32 (by omega), hat 28 (by omega), h1, h2, h3, h3', h4, h5]
    rw [write32_write32, read32_write32 _ _ hflags]
    simp (disch := decide) only [habove]
  have hwords := returnFrame_words m.mem hlow (read32_lt m.mem (regs + 44)) (read32_lt m.mem (regs + 40))
    (returnFlags_lt m.eflags) (read32_lt m.mem (regs + 32)) (read32_lt m.mem (regs + 28))
  simp only [← hmem] at hwords
  refine ⟨?_, ?_, ?_, hwords.2, hwords.1⟩
  · simp only [pushReturnFrame, run_cons, run_nil, exec, Machine.pushVal, Machine.popped, Machine.set,
      Function.update_apply, reduceCtorEq, if_true, if_false, hesp]
  · simp only [pushReturnFrame, run_cons, run_nil, exec, Machine.at, Machine.pushVal, Machine.popped, Machine.set,
      Function.update_apply, reduceCtorEq, if_true, if_false, hesp, harg, harg']
  · simp only [pushReturnFrame, run_cons, run_nil, exec, Machine.pushVal, Machine.popped, Machine.set,
      Function.update_apply, reduceCtorEq, if_true, if_false, hesp, h1, h2, h3, h3', h4, h5]

/-- The segment moves change neither memory nor the registers used after them. -/
theorem loadSegments_spec (m : Machine) :
    let t := run m loadSegments
    t.reg .ebp = m.reg .ebp ∧ t.reg .ebx = m.reg .ebx ∧ t.reg .esp = m.reg .esp ∧ t.mem = m.mem ∧
      t.eflags = m.eflags := by
  simp only [loadSegments, run_cons, run_nil, exec, Machine.set, Function.update_apply, reduceCtorEq, if_false,
    and_self]

/-- The loads of `restore_general_purpose_registers` and the way back to `task_return`. -/
theorem restoreLoads_spec {m : Machine} {esp regs : Nat} (hesp : m.reg .esp = esp) (hebx : m.reg .ebx = regs)
    (hstack : esp + 12 ≤ 2 ^ 32 - 1) (hregs : regs + 48 ≤ 2 ^ 32) :
    let t := run m [.load .edi .ebx 0, .load .esi .ebx 4, .load .ebp .ebx 8, .load .edx .ebx 16, .load .ecx .ebx 20,
      .load .eax .ebx 24, .load .ebx .ebx 12, .pop .ebp, .ret, .add .esp 4]
    t.reg .edi = read32 m.mem regs ∧ t.reg .esi = read32 m.mem (regs + 4) ∧ t.reg .ebp = read32 m.mem esp ∧
      t.reg .ebx = read32 m.mem (regs + 12) ∧ t.reg .edx = read32 m.mem (regs + 16) ∧
      t.reg .ecx = read32 m.mem (regs + 20) ∧ t.reg .eax = read32 m.mem (regs + 24) ∧ t.reg .esp = esp + 12 ∧
      t.eip = read32 m.mem (esp + 4) ∧ t.mem = m.mem := by
  have hat : ∀ off, off ≤ 44 → (regs + off) % 2 ^ 32 = regs + off := fun off h => by omega
  have hat0 : regs % 2 ^ 32 = regs := by omega
  have h1 : (esp + 4) % 2 ^ 32 = esp + 4 := by omega
  have h2 : (esp + 4 + 4) % 2 ^ 32 = esp + 8 := by omega
  have h3 : (esp + 8 + 4) % 2 ^ 32 = esp + 12 := by omega
  simp only [run_cons, run_nil, exec, Machine.at, Machine.top, Machine.popped, Machine.set, Function.update_apply,
    reduceCtorEq, if_true, if_false, hesp, hebx, h1, h2, h3, hat0, hat 4 (by omega), hat 12 (by omega),
    hat 16 (by omega), hat 20 (by omega), hat 24 (by omega), and_self, Nat.add_zero]

/-- `restore_general_purpose_registers(regs)` loads all registers but `ebp`, which its last
`pop` takes back from its caller. -/
theorem restore_spec {m : Machine} {esp frame regs after : Nat} (hesp : m.reg .esp = esp) (hebp : m.reg .ebp = frame)
    (hlow : 12 ≤ esp) (harg : read32 m.mem (frame + 4) = regs) (hframe : esp ≤ frame + 4)
    (hframe' : frame + 8 ≤ 2 ^ 32) (hstack : esp ≤ regs) (hregs : regs + 48 ≤ 2 ^ 32) (hafter : after < 2 ^ 32) :
    let t := run m ((.pushMem .ebp 4 :: .call after :: restoreGeneralPurposeRegisters) ++ [.add .esp 4])
    t.reg .edi = read32 m.mem regs ∧ t.reg .esi = read32 m.mem (regs + 4) ∧ t.reg .ebp = frame ∧
      t.reg .ebx = read32 m.mem (regs + 12) ∧ t.reg .edx = read32 m.mem (regs + 16) ∧
      t.reg .ecx = read32 m.mem (regs + 20) ∧ t.reg .eax = read32 m.mem (regs + 24) ∧ t.reg .esp = esp ∧
      t.eip = after ∧ SameOutside ⟨esp - 12, 12⟩ m.mem t.mem := by
  have harg' : (frame + 4) % 2 ^ 32 = frame + 4 := by omega
  have hesp' : esp ≤ 2 ^ 32 := by omega
  have h1 := pushed_address 0 (by omega) hesp'
  have h2 := pushed_address 4 (by omega) hesp'
  have h3 := pushed_address 8 (by omega) hesp'
  simp only [Nat.sub_zero, Nat.reduceAdd] at h1 h2 h3
  have h4 : (esp - 12 + 8) % 2 ^ 32 = esp - 4 := by omega
  -- the call, the caller's `ebp` and the argument
  have hmem : (run m [.pushMem .ebp 4, .call after, .push .ebp, .mov .ebp .esp, .load .ebx .ebp 8]).mem =
      write32 (write32 (write32 m.mem (esp - 4) regs) (esp - 8) after) (esp - 12) frame := by
    simp only [run_cons, run_nil, exec, Machine.at, Machine.pushVal, Machine.set, Function.update_apply, reduceCtorEq,
      if_true, if_false, hesp, hebp, harg, harg', h1, h2, h3]
  have hcalled : (run m [.pushMem .ebp 4, .call after, .push .ebp, .mov .ebp .esp, .load .ebx .ebp 8]).reg .esp =
      esp - 12 := by
    simp only [run_cons, run_nil, exec, Machine.pushVal, Machine.set, Function.update_apply, reduceCtorEq, if_true,
      if_false, hesp, h1, h2, h3]
  have hloaded : (run m [.pushMem .ebp 4, .call after, .push .ebp, .mov .ebp .esp, .load .ebx .ebp 8]).reg .ebx =
      regs := by
    simp (disch := omega) only [run_cons, run_nil, exec, Machine.at, Machine.pushVal, Machine.set,
      Function.update_apply, reduceCtorEq, if_true, if_false, hesp, hebp, harg, harg', h1, h2, h3, h4,
      read32_write32_apart, read32_write32]
  have hrun : run m ((.pushMem .ebp 4 :: .call after :: restoreGeneralPurposeRegisters) ++ [.add .esp 4]) =
      run (run m [.pushMem .ebp 4, .call after, .push .ebp, .mov .ebp .esp, .load .ebx .ebp 8])
        [.load .edi .ebx 0, .load .esi .ebx 4, .load .ebp .ebx 8, .load .edx .ebx 16, .load .ecx .ebx 20,
          .load .eax .ebx 24, .load .ebx .ebx 12, .pop .ebp, .ret, .add .esp 4] := by
    rw [← run_append]
    rfl
  rw [hrun]
  generalize run m [.pushMem .ebp 4, .call after, .push .ebp, .mov .ebp .esp, .load .ebx .ebp 8] = called at *
  have hsame : SameOutside ⟨esp - 12, 12⟩ m.mem called.mem := by
    intro b hb
    rw [Extent.holds_mk] at hb
    rw [hmem]
    simp (disch := omega) only [write32_apart]
  have hsaved : ∀ off, off ≤ 44 → read32 called.mem (regs + off) = read32 m.mem (regs + off) := fun off hoff =>
    hsame.read32 (by simp only; omega)
  have hsaved0 := hsaved 0 (by omega)
  rw [Nat.add_zero] at hsaved0
  have hcaller : read32 called.mem (esp - 12) = frame := by
    rw [hmem]
    exact read32_write32 _ _ (by omega)
  have hback : read32 called.mem (esp - 12 + 4) = after := by
    rw [hmem, show esp - 12 + 4 = esp - 8 by omega]
    simp (disch := omega) only [read32_write32_apart, read32_write32]
  obtain ⟨hedi, hesi, hebp', hebx, hedx, hecx, heax, hesp', heip, hmem'⟩ :=
    restoreLoads_spec hcalled hloaded (by omega) hregs
  refine ⟨hedi.trans hsaved0, hesi.trans (hsaved 4 (by omega)), hebp'.trans hcaller, hebx.trans (hsaved 12 (by omega)),
    hedx.trans (hsaved 16 (by omega)), hecx.trans (hsaved 20 (by omega)), heax.trans (hsaved 24 (by omega)),
    hesp'.trans (by omega), heip.trans hback, ?_⟩
  rw [hmem']
  exact hsame

/-- `task_return` entered with its argument on the stack. -/
theorem taskReturn_spec {m : Machine} {esp regs after : Nat} (hesp : m.reg .esp = esp) (hlow : 32 ≤ esp)
    (harg : read32 m.mem (esp + 4) = regs) (hstack : esp + 8 ≤ regs) (hregs : regs + 48 ≤ 2 ^ 32)
    (hafter : after < 2 ^ 32) :
    iretRegisters (run m (taskReturn after)) =
        {registersAt m.mem regs with ebp := esp, eflags := (m.eflags &&& 0x00FCFFFF) ||| 0x200} ∧
      SameOutside ⟨esp - 32, 32⟩ m.mem (run m (taskReturn after)).mem := by
  have hrun : run m (taskReturn after) = run (run (run m pushReturnFrame) loadSegments)
      ((.pushMem .ebp 4 :: .call after :: restoreGeneralPurposeRegisters) ++ [.add .esp 4]) := by
    unfold taskReturn
    rw [List.append_assoc, List.append_assoc, run_append, run_append]
  obtain ⟨hebp3, _, hesp3, hsame3, heip, hcs, hflags, hsp, hss⟩ :=
    pushReturnFrame_spec hesp (by omega) harg hstack hregs
  generalize run m pushReturnFrame = pushed at *
  obtain ⟨hebp4, _, hesp4, hmem4, _⟩ := loadSegments_spec pushed
  generalize run pushed loadSegments = loaded at *
  have hsame4 : SameOutside ⟨esp - 20, 20⟩ m.mem loaded.mem := by rw [hmem4]; exact hsame3
  have harg4 : read32 loaded.mem (esp + 4) = regs := by rw [hsame4.read32 (by simp only; omega), harg]
  obtain ⟨hedi, hesi, hebp, hebx, hedx, hecx, heax, hesp5, _, hsame5⟩ :=
    restore_spec (hesp4.trans hesp3) (hebp4.trans hebp3) (by omega) harg4 (by omega) (by omega) (by omega) hregs hafter
  rw [← hrun] at hedi hesi hebp hebx hedx hecx heax hesp5 hsame5
  generalize run m (taskReturn after) = done at *
  -- the structure is above the stack, the words pushed are above the second call's
  have hsaved : ∀ off, off ≤ 44 → read32 loaded.mem (regs + off) = read32 m.mem (regs + off) := fun off hoff =>
    hsame4.read32 (by simp only; omega)
  have hpushed : ∀ off, off ≤ 16 → read32 done.mem (esp - 20 + off) = read32 pushed.mem (esp - 20 + off) := by
    intro off hoff
    rw [hsame5.read32 (by simp only; omega), hmem4]
  have hsaved0 := hsaved 0 (by omega)
  have hpushed0 := hpushed 0 (by omega)
  rw [Nat.add_zero] at hsaved0 hpushed0
  constructor
  · simp only [iretRegisters, registersAt, Registers.mk.injEq, hesp5, hedi, hesi, hebp, hebx, hedx, hecx, heax, hsaved0,
      hpushed0, hsaved 4 (by omega), hsaved 12 (by omega), hsaved 16 (by omega), hsaved 20 (by omega),
      hsaved 24 (by omega), hpushed 4 (by omega), hpushed 8 (by omega), hpushed 12 (by omega), hpushed 16 (by omega),
      heip, true_and]
    rw [show esp - 20 + 4 = esp - 16 by omega, show esp - 20 + 8 = esp - 12 by omega,
      show esp - 20 + 12 = esp - 8 by omega, show esp - 20 + 16 = esp - 4 by omega]
    exact ⟨hcs, hflags, hsp, hss⟩
  · refine (hsame4.mono fun b hb => ?_).trans (hsame5.mono fun b hb => ?_)
    · rw [Extent.holds_mk] at hb ⊢
      omega
    · rw [Extent.holds_mk] at hb ⊢
      omega

/-- **What `task_return` hands to `iretd`**: the saved registers, but for `ebp`, which is the
stack pointer `task_return` was entered with, and the flags, which are the kernel's. -/
theorem iretRegisters_callTaskReturn {m : Machine} {esp task caller after : Nat} (hesp : m.reg .esp = esp)
    (hlow : 40 ≤ esp) (hstack : esp ≤ task) (htask : task + sizeofTask ≤ 2 ^ 32) (hafter : after < 2 ^ 32) :
    iretRegisters (callTaskReturn m task caller after) =
        {registersAt m.mem (taskRegisters task) with
          ebp := esp - 8, eflags := (m.eflags &&& 0x00FCFFFF) ||| 0x200} ∧
      SameOutside ⟨esp - 40, 40⟩ m.mem (callTaskReturn m task caller after).mem := by
  simp only [sizeofTask] at htask
  have hregs : taskRegisters task = task + 4 := rfl
  -- the argument and the return address of the call
  obtain ⟨hmem1, hesp1⟩ := pushVal_mem (taskRegisters task) hesp (by omega) (by omega)
  obtain ⟨hmem2, hesp2⟩ := pushVal_mem caller hesp1 (by omega) (by omega)
  rw [hmem1] at hmem2
  have hflags : ((m.pushVal (taskRegisters task)).pushVal caller).eflags = m.eflags := rfl
  unfold callTaskReturn
  generalize (m.pushVal (taskRegisters task)).pushVal caller = entry at *
  have hsame : SameOutside ⟨esp - 8, 8⟩ m.mem entry.mem := by
    intro b hb
    rw [Extent.holds_mk] at hb
    rw [hmem2]
    simp (disch := omega) only [write32_apart]
  have harg : read32 entry.mem (esp - 4 - 4 + 4) = taskRegisters task := by
    rw [show esp - 4 - 4 + 4 = esp - 4 by omega, hmem2]
    simp (disch := omega) only [read32_write32_apart, read32_write32]
  obtain ⟨hiret, hsame'⟩ := taskReturn_spec hesp2 (by omega) harg (by omega) (by omega) hafter
  constructor
  · rw [hiret, hflags, registersAt_congr fun b h1 h2 => hsame b (by rw [Extent.holds_mk]; omega),
      show esp - 4 - 4 = esp - 8 by omega]
  · refine (hsame.mono fun b hb => ?_).trans (hsame'.mono fun b hb => ?_)
    · rw [Extent.holds_mk] at hb ⊢
      omega
    · rw [Extent.holds_mk] at hb ⊢
      omega

/-- The kernel where it calls `task_return`: its stack pointer and its flags. -/
structure KernelReturn where
  esp : Nat
  eflags : Nat
deriving DecidableEq, Repr

/-- What `task_return` makes of the registers it is handed: `ebp` is its own, and the flags are the kernel's. -/
def KernelReturn.taskReturn (kernel : KernelReturn) (r : Registers) : Registers :=
  {r with ebp := kernel.esp - 8, eflags := (kernel.eflags &&& 0x00FCFFFF) ||| 0x200}

theorem callTaskReturn_taskReturn {m : Machine} {task caller after : Nat} (hlow : 40 ≤ m.reg .esp)
    (hstack : m.reg .esp ≤ task) (htask : task + sizeofTask ≤ 2 ^ 32) (hafter : after < 2 ^ 32) :
    iretRegisters (callTaskReturn m task caller after) =
      (KernelReturn.mk (m.reg .esp) m.eflags).taskReturn (registersAt m.mem (taskRegisters task)) :=
  (iretRegisters_callTaskReturn rfl hlow hstack htask hafter).1

/-! ### Runs -/

/-- What happens between a task's interrupt and its next turn. -/
inductive SwitchOp where
  /-- Another task is interrupted and saved. -/
  | save (other : Nat) (frame : InterruptFrame)
  /-- Another task is returned to, and runs until it is interrupted again. -/
  | run (other caller after : Nat)

/-- The kernel's stack lies below the heap, where every `struct task` is. -/
def KernelStack (m : Machine) : Prop := 40 ≤ m.reg .esp ∧ m.reg .esp ≤ 0x600000

/-- The other task is another block of memory; `task_return` is called on the kernel's stack. -/
def SwitchLegal (task : Nat) (m : Machine) : SwitchOp → Prop
  | .save other _ => other + sizeofTask ≤ task ∨ task + sizeofTask ≤ other
  | .run other _ after => KernelStack m ∧ 0x600000 ≤ other ∧ other + sizeofTask ≤ 2 ^ 32 ∧ after < 2 ^ 32

/-- A program that runs changes everything but the kernel's structures. -/
def SwitchStep (task : Nat) (m : Machine) : SwitchOp → Machine → Prop
  | .save other frame, m' => m' = {m with mem := taskSaveState m.mem other frame}
  | .run other caller after, m' =>
    ∀ b, task ≤ b → b < task + sizeofTask → m'.mem b = (callTaskReturn m other caller after).mem b

/-- The machines reached from the one at which the task was saved. -/
abbrev SwitchRun (task : Nat) (saved : Machine) : Machine → Prop :=
  Run (SwitchStep task) (SwitchLegal task) (· = saved)

/-- Nothing in between touches the task's registers. -/
theorem SwitchRun.registers {task : Nat} {saved m : Machine} (h : SwitchRun task saved m) (htask : 0x600000 ≤ task) :
    registersAt m.mem (taskRegisters task) = registersAt saved.mem (taskRegisters task) := by
  refine h.invariant (I := fun m => registersAt m.mem (taskRegisters task) =
    registersAt saved.mem (taskRegisters task)) (fun m hm => by rw [hm]) fun m op m' ih hlegal hstep => ?_
  rw [← ih]
  apply registersAt_congr
  intro b h1 h2
  unfold taskRegisters at h1 h2
  cases op with
  | save other frame =>
    subst hstep
    refine sameOutside_taskSaveState m.mem other frame b ?_
    simp only [SwitchLegal, sizeofTask] at hlegal
    rw [Extent.holds_mk]
    unfold taskRegisters
    omega
  | run other caller after =>
    obtain ⟨⟨hlow, hhigh⟩, hother, hfit, hafter⟩ := hlegal
    rw [hstep b (by omega) (by simp only [sizeofTask]; omega)]
    refine (iretRegisters_callTaskReturn rfl hlow (by omega) hfit hafter).2 b ?_
    rw [Extent.holds_mk]
    omega

/-- **A program finds its registers after a switch exactly when** its `ebp` was the kernel's
stack pointer on entry to `task_return` and its flags, the interrupt flag set, are the
kernel's. -/
theorem contextSwitch_iff (m : Machine) (task : Nat) (f : InterruptFrame) (hf : f.Words) (htask : 0x600000 ≤ task)
    (hfit : task + sizeofTask ≤ 2 ^ 32) {m' : Machine}
    (hrun : SwitchRun task {m with mem := taskSaveState m.mem task f} m') (hstack : KernelStack m') (caller after : Nat)
    (hafter : after < 2 ^ 32) :
    iretRegisters (callTaskReturn m' task caller after) = {f.registers with eflags := f.eflags ||| 0x200} ↔
      f.ebp = m'.reg .esp - 8 ∧ f.eflags ||| 0x200 = (m'.eflags &&& 0x00FCFFFF) ||| 0x200 := by
  obtain ⟨hlow, hhigh⟩ := hstack
  rw [(iretRegisters_callTaskReturn rfl hlow (by omega) hfit hafter).1, hrun.registers htask,
    registersAt_taskSaveState m.mem task hf]
  simp only [InterruptFrame.registers, Registers.mk.injEq, true_and, and_true]
  exact and_congr eq_comm eq_comm

/-- A task whose `ebp` and flags happen to be the kernel's resumes as it was. -/
theorem contextSwitch_lucky :
    iretRegisters (callTaskReturn ⟨fun _ => 0x600000, fun _ => 0x10, 0x2, 0,
        taskSaveState (fun _ => 0) 0x1000000 ⟨1, 2, 0x5ffff8, 4, 5, 6, 7, 8, 0, 0x400000, 0x1b, 0x202, 0x3ff000, 0x23⟩⟩
        0x1000000 0x100500 0x100600) =
      ⟨1, 2, 0x5ffff8, 5, 6, 7, 8, 0x400000, 0x1b, 0x202 ||| 0x200, 0x3ff000, 0x23⟩ :=
  (contextSwitch_iff ⟨fun _ => 0x600000, fun _ => 0x10, 0x2, 0, fun _ => 0⟩ 0x1000000
    ⟨1, 2, 0x5ffff8, 4, 5, 6, 7, 8, 0, 0x400000, 0x1b, 0x202, 0x3ff000, 0x23⟩
    ⟨by decide, by decide, by decide, by decide, by decide, by decide, by decide, by decide, by decide, by decide,
      by decide, by decide⟩ (by decide) (by decide) (.start rfl) ⟨by decide, by decide⟩ 0x100500 0x100600
    (by decide)).mpr ⟨by decide, by decide⟩

/-- **A program's `ebp` is lost**: saved with 0x3fef00, it resumes with the kernel's stack
pointer. -/
theorem contextSwitch_loses_ebp :
    ¬ ∀ (m : Machine) (task : Nat) (f : InterruptFrame), f.Words → 0x600000 ≤ task → task + sizeofTask ≤ 2 ^ 32 →
      ∀ m', SwitchRun task {m with mem := taskSaveState m.mem task f} m' → KernelStack m' →
      ∀ caller after, after < 2 ^ 32 →
      iretRegisters (callTaskReturn m' task caller after) = {f.registers with eflags := f.eflags ||| 0x200} := by
  intro h
  let m : Machine := ⟨fun _ => 0x600000, fun _ => 0x10, 0x2, 0, fun _ => 0⟩
  let f : InterruptFrame := ⟨1, 2, 0x3fef00, 4, 5, 6, 7, 8, 0, 0x400000, 0x1b, 0x202, 0x3fef00, 0x23⟩
  have hlost := h m 0x1000000 f ⟨by decide, by decide, by decide, by decide, by decide, by decide, by decide,
    by decide, by decide, by decide, by decide, by decide⟩ (by decide) (by decide) _ (.start rfl)
    ⟨by decide, by decide⟩ 0x100500 0x100600 (by decide)
  rw [(iretRegisters_callTaskReturn rfl (by decide) (by decide) (by decide) (by decide)).1] at hlost
  exact absurd (congrArg Registers.ebp hlost) (by decide)

end BasicOS

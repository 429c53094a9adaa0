import BasicOS.Process.Programs

/-! What the kernel keeps for itself.

The blocks the kernel has from the start belong to no process. Whatever the programs then do, and whatever the kernel
does for them, such a block stays as large as it was and holds the bytes it held (`kernel_kept`). -/
namespace BasicOS
open Lib Program

variable {H : Type} {A : Allocator H} {C : Contract A} {L L' : Ledger} {p : Nat} {sp : Space} {held : Nat → Prop}

/-- A live block of no process. -/
structure Ledger.KernelBlock (L : Ledger) (b : Nat) : Prop where
  live : L.pages b ≠ 0
  free : L.owner b = none

/-- The byte is in a live block of no process. -/
def Ledger.KernelByte (L : Ledger) (a : Nat) : Prop :=
  ∃ b, L.KernelBlock b ∧ b ≤ a ∧ a < b + L.pages b * heapBlockSize

/-! ### What is done for a process -/

section Operations

variable {s t : Kernel H} {a b : Nat}

/-- What is done for a process leaves the bytes of the kernel alone. -/
theorem Ledger.KernelByte.steady (h : L.KernelByte a) (p : Nat) : L.Steady p a := by
  obtain ⟨b, hb, h1, h2⟩ := h
  refine .inr ⟨b, hb.live, ?_, h1, h2⟩
  rw [hb.free]
  exact Option.some_ne_none _ ∘ Eq.symm

/-- What is released was of a process. -/
theorem Ledger.Shed.kernelBlock (h : L.Shed p L') (hb : L.KernelBlock b) : L'.KernelBlock b ∧ L'.pages b = L.pages b := by
  have hpages : L'.pages b = L.pages b := (h.kept b).resolve_right fun ⟨_, i, howner⟩ => by
    rw [hb.free] at howner
    cases howner
  exact ⟨⟨hpages.trans_ne hb.live, (congrFun h.owner b).trans hb.free⟩, hpages⟩

theorem Ledger.Shed.kernelByte (h : L.Shed p L') (ha : L.KernelByte a) : L'.KernelByte a := by
  obtain ⟨b, hb, h1, h2⟩ := ha
  obtain ⟨hb', hpages⟩ := h.kernelBlock hb
  exact ⟨b, hb', h1, hpages ▸ h2⟩

theorem terminalAllocations_kernel (h : Populated C s L) (hp : L.space p = some sp) (n : Nat) :
    Ensures (terminalAllocations A p n) (fun _ t => ∀ a, L.KernelByte a → t.ram.mem a = s.ram.mem a) s := by
  induction n with
  | zero => exact fun _ _ => rfl
  | succ n ih =>
    have hspec : Ensures (terminalAllocations A p n) (fun _ t => ∃ L', L.Shed p L' ∧ Populated C t L') s :=
      (terminalAllocations_spec h hp n).mono (fun _ _ h => h.2) fun _ _ => trivial
    unfold terminalAllocations
    refine wp.bind (hspec.and ih) fun _ t ht => ?_
    obtain ⟨⟨L₁, hshed, h₁⟩, hsame⟩ := ht
    obtain ⟨sp₁, hspace⟩ := hshed.space
    have hp₁ : L₁.space p = some sp₁ := by rw [hspace, Function.update_self]
    obtain ⟨P, hP⟩ := h₁.resident p sp₁ hp₁
    rw [wp_bind, wp_loadProcess hP.process, wp_when]
    refine ⟨fun _ => ?_, fun _ => hsame⟩
    refine (processFree_steady h₁ hp₁ _).mono fun _ _ hsteady a ha => ?_
    exact (hsteady a ((hshed.kernelByte ha).steady p)).trans (hsame a ha)

attribute [local irreducible] pagingFree4gb tablesBelow terminalAllocations

/-- The end of a process writes to nothing of the kernel. -/
theorem processTerminate_kernel (h : Populated C s L) (hp : L.space p = some sp) :
    Ensures (processTerminate A p) (fun _ t => ∀ a, L.KernelByte a → t.ram.mem a = s.ram.mem a) s := by
  have hspec : Ensures (terminalAllocations A p basicOSMaxAllocationsAllowedPerProcess)
      (fun _ t => ∃ L', L.Shed p L' ∧ Populated C t L') s :=
    (terminalAllocations_spec h hp _).mono (fun _ _ h => h.2) fun _ _ => trivial
  unfold processTerminate processTerminalAllocations
  rw [Ensures, wp_bind, wp_bind]
  refine wp.mono (hspec.and (terminalAllocations_kernel h hp _)) (fun _ s₁ ht => ?_) fun _ _ => trivial
  obtain ⟨⟨L₁, hshed, h₁⟩, hsame⟩ := ht
  rw [wp_pure, if_neg (by decide)]
  obtain ⟨sp₁, hspace⟩ := hshed.space
  have hp₁ : L₁.space p = some sp₁ := by rw [hspace, Function.update_self]
  obtain ⟨P₁, hP₁⟩ := h₁.resident p sp₁ hp₁
  refine (processTerminate_dismantles h₁ hp₁ hP₁).mono (fun _ t ht a ha => ?_) fun _ _ => trivial
  obtain ⟨ys, hd⟩ := ht
  exact (congrFun hd.freed.mem a).trans (hsame a ha)

end Operations

attribute [local irreducible] processTerminate processLoadSwitch

variable {s t u : Lives H}

/-- **An operation of the kernel writes to nothing that is its own.** -/
theorem LifeStep.kernel {op : LifeOp} {a : Nat} (h : s.Accounted C L) (hstep : LifeStep A s op t) (ha : L.KernelByte a) :
    t.kernel.ram.mem a = s.kernel.ram.mem a := by
  have hvalid := h.populated.accounts.valid
  have htaken : ∀ {xs : List Nat}, Taken C s.kernel.ram t.kernel.ram xs → t.kernel.ram.mem a = s.kernel.ram.mem a := by
    intro xs htaken
    obtain ⟨b, hb, h1, h2⟩ := ha
    refine htaken.same b a (h.populated.accounts.live_iff.mp hb.live) ⟨h1, ?_⟩
    rw [h.populated.accounts.pages] at h2
    exact h2
  cases hstep with
  | load hload =>
    rcases (processLoadSwitch_loads (C := C) _ hvalid).returned hload with hneg | ⟨_, _, _, frame, new⟩
    · exact absurd hneg (by simp)
    · exact htaken new.taken
  | loadFails hload hneg =>
    obtain ⟨_, _, _, htaken'⟩ := (processLoadSwitch_stays _ h.populated h.closed).returned hload hneg
    exact htaken htaken'
  | malloc hp hmalloc =>
    obtain ⟨sp, hsp⟩ := h.live _ hp
    obtain ⟨_, hsteady, _⟩ := ((h.populated.malloc hsp _).mono (fun _ _ h => h) fun _ _ => trivial).returned hmalloc
    exact hsteady a (ha.steady _)
  | free hp hfree =>
    obtain ⟨sp, hsp⟩ := h.live _ hp
    exact (processFree_steady h.populated hsp _).returned hfree a (ha.steady _)
  | terminate hp hterminate =>
    obtain ⟨sp, hsp⟩ := h.live _ hp
    exact (processTerminate_kernel h.populated hsp).returned hterminate a ha

/-- Blocks of the kernel stay as large as they are. -/
theorem Ledger.Transaction.kernelBlock {s t : Kernel H} {op : LifeOp} {b : Nat} (h : L.Transaction C s t op L')
    (hpopulated : Populated C s L) (hb : L.KernelBlock b) : L'.pages b = L.pages b := by
  cases h with
  | arrival _ _ _ harrival _ => exact (harrival.kept b hb.live).1
  | kept hkept => exact hkept b hb.live
  | @malloc p sp i ptr size n _ _ _ _ hfresh =>
    exact Function.update_of_ne (fun heq : b = ptr => hb.live (heq ▸ hfresh)) ..
  | @free p _ sp i hsp hi =>
    refine Function.update_of_ne (fun heq => ?_) ..
    have howner := ((hpopulated.recorded p sp hsp).owned i hi).1
    rw [← heq, hb.free] at howner
    cases howner
  | departure hdeparture =>
    refine (hdeparture.kept b).resolve_right fun ⟨_, use, howner⟩ => ?_
    rw [hb.free] at howner
    cases howner

/-! ### Runs -/

/-- From `s`, where the ledger was `L`, to `t` the blocks of the kernel are as they were. -/
structure Unharmed (C : Contract A) (held : Nat → Prop) (s : Lives H) (L : Ledger) (t : Lives H) (L' : Ledger) : Prop where
  confined : t.Confined C held L'
  pages : ∀ b, held b → L'.pages b = L.pages b
  bytes : ∀ b a, held b → b ≤ a → a < b + L.pages b * heapBlockSize → t.kernel.ram.mem a = s.kernel.ram.mem a

theorem Unharmed.step {op : WorkOp} (h : Unharmed C held s L t L') (hinside : op.Inside) (hstep : WorkStep A t op u) :
    ∃ L'', Unharmed C held s L u L'' := by
  obtain ⟨hconfined, hpages, hbytes⟩ := h
  have hblock : ∀ b, held b → L'.KernelBlock b := fun b hb =>
    ⟨(hconfined.confined.held b hb).1, (hconfined.confined.held b hb).2⟩
  have hbyte : ∀ b a, held b → b ≤ a → a < b + L.pages b * heapBlockSize → L'.KernelByte a := fun b a hb h1 h2 =>
    ⟨b, hblock b hb, h1, (hpages b hb).symm ▸ h2⟩
  cases hstep with
  | @call op u hcall =>
    obtain ⟨L'', haccounted, htransaction⟩ := hconfined.accounted.transact hcall
    have hnext := htransaction.confined hconfined.confined hconfined.tidy hconfined.accounted.populated hinside
    exact ⟨L''.tidy, ⟨⟨haccounted.populated.tidy, haccounted.live, haccounted.closed⟩,
        hnext.tidy haccounted.populated, L''.tidy_tidy⟩,
      fun b hb => (htransaction.kernelBlock hconfined.accounted.populated (hblock b hb)).trans (hpages b hb),
      fun b a hb h1 h2 => (hcall.kernel hconfined.accounted (hbyte b a hb h1 h2)).trans (hbytes b a hb h1 h2)⟩
  | @store p vAddr byte directory hp hdirectory hvAddr hwritable =>
    have hown := hconfined.own hp hdirectory hvAddr hwritable
    obtain ⟨haccounted, hconfined, htidy⟩ := hconfined
    refine ⟨L', ⟨⟨haccounted.populated.store hown byte, haccounted.live, haccounted.closed⟩, hconfined, htidy⟩, hpages,
      fun b a hb h1 h2 => (Function.update_of_ne ?_ ..).trans (hbytes b a hb h1 h2)⟩
    rintro rfl
    -- the byte would be of two blocks
    obtain ⟨c, use, howns, _, h1', h2'⟩ := hown
    have hne : b ≠ c := fun heq => by
      have howner := howns.owner
      rw [← heq, (hblock b hb).free] at howner
      cases howner
    have hapart := haccounted.populated.accounts.placed.apart b c (hblock b hb).live howns.live hne
    rw [hpages b hb] at hapart
    omega

/-- **What the kernel has from the start it keeps.** From any state that programs at work reach, whatever they then do: a
block of the kernel stays live and as large as it was, and no byte of it changes. -/
theorem kernel_kept (hrun : Run (WorkStep A) (fun _ op => op.Inside) (Booted C held) s)
    (hmore : Run (WorkStep A) (fun _ op => op.Inside) (· = s) t) {b : Nat} (hb : held b) :
    C.pages t.kernel.ram b = C.pages s.kernel.ram b ∧
      ∀ a, (C.block s.kernel.ram b).Holds a → t.kernel.ram.mem a = s.kernel.ram.mem a := by
  obtain ⟨L, hconfined⟩ := lives_confined_of_run hrun
  have hinvariant : ∃ L', Unharmed C held s L t L' := by
    refine hmore.invariant (I := fun t => ∃ L', Unharmed C held s L t L') (fun t ht => ?_)
      fun _ _ _ ⟨_, h⟩ hinside hstep => h.step hinside hstep
    subst ht
    exact ⟨L, hconfined, fun _ _ => rfl, fun _ _ _ _ _ => rfl⟩
  obtain ⟨L', h⟩ := hinvariant
  have hpages := h.pages b hb
  rw [h.confined.accounted.populated.accounts.pages, hconfined.accounted.populated.accounts.pages] at hpages
  refine ⟨hpages, fun a ha => h.bytes b a hb ha.1 ?_⟩
  rw [hconfined.accounted.populated.accounts.pages]
  exact ha.2

end BasicOS

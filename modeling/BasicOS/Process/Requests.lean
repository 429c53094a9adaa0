import BasicOS.Process.Rights

/-! What a program gets when it asks for memory.

`process_malloc` clears as many bytes as were asked for, maps their pages to themselves and records the block. So what
a program gets is new, all of it zero, and its own: no process could write a byte of it before. The rest of what the
program can write it sees as it was, unless the new pages are laid over it (`request_fresh`). What it gives back it
cannot reach any more, for reading or for writing, and the rest stays (`release_revokes`). -/
namespace BasicOS
open Lib Program

variable {H : Type} {A : Allocator H} {C : Contract A} {L : Ledger} {p q size : Nat} {sp : Space} {held : Nat → Prop}

section Contents

variable {s : Kernel H}

/-- What was asked for is cleared, and mapping it changes tables only. -/
theorem processMalloc_zeroes (h : Populated C s L) (hp : L.space p = some sp) (size : Nat) :
    Ensures (processMalloc A p size) (fun ptr t => ptr ≠ 0 → ∀ i, i < size → t.ram.mem (ptr + i) = 0) s := by
  obtain ⟨P, T, D, hheld⟩ := h.accounts.held p sp hp
  unfold processMalloc
  rw [Ensures, wp_bind, wp_loadProcess hheld.process]
  generalize processFindFreeAllocationSlot P = idx
  dsimp only
  split
  · exact fun hne => absurd rfl hne
  refine wp.bind (Ensures.onRam ((Taken.refl h.accounts.valid).kzalloc size)) fun ptr t ht => ?_
  obtain ⟨r, rfl, hmemory⟩ := ht
  split
  · exact fun hne => absurd rfl hne
  rename_i hne
  obtain ⟨hnull, _⟩ | ⟨_, hnew, hroom, hzero⟩ := hmemory
  · exact absurd hnull hne
  have hlive := hnew.fresh ptr (List.mem_singleton_self _)
  have hpage : ∀ b ∈ D.blocks T.pageDirectory, C.pages s.ram b ≠ 0 ∧
      ∀ a, Extent.Holds ⟨b, pagingPageSize⟩ a → r.mem a = s.ram.mem a := by
    intro b hb
    have hlive := h.accounts.live_iff.mp (hheld.blocks b hb).1
    exact ⟨hlive, fun a ha => hnew.same b a hlive (Contract.holds_page hlive ha.1 ha.2)⟩
  have hheld₁ : HeldBy C (s.withRam r) {L with pages := C.live r.heap} p sp P T D :=
    hheld.frame rfl hheld.task rfl (fun b _ hb _ => ⟨h.kept_taken (t := s.withRam r) hnew b hb, rfl⟩)
      fun b hb => (hpage b hb).2
  obtain ⟨halign, _, hend⟩ := C.placed hnew.valid hlive.2
  have hfit : ptr + size + pagingPageSize ≤ 2 ^ 32 := by
    change ptr + C.pages r ptr * heapBlockSize ≤ _ at hend
    simp only [heapBlockSize, heapBaseAddress, heapMaxHeapSize, pagingPageSize] at *
    omega
  refine wp.bind ((hheld₁.mapSelf halign hfit (by decide)).mono (fun _ _ h => h) fun _ _ => trivial) fun res u hmapped => ?_
  obtain ⟨rfl, mem, rfl, _, hsame⟩ := hmapped
  rw [if_neg (by decide), wp_bind]
  refine (wp_loadProcess (by exact hheld.process)).mpr ?_
  rw [wp_bind]
  refine (wp_storeProcess (by exact hheld.process)).mpr fun _ i hi => ?_
  show mem (ptr + i) = 0
  rw [hsame (ptr + i)]
  · show r.mem (ptr + i) = 0
    rw [hzero]
    exact if_pos ⟨Nat.le_add_right ptr i, Nat.add_lt_add_left hi ptr⟩
  -- the tables were there before
  rintro ⟨j, hj, hin⟩
  have htable := (hpage (D.tables j) (DirectoryBlocks.mem_blocks.mpr (.inr (.inr ⟨j, hj, rfl⟩)))).1
  rw [Extent.holds_mk] at hin
  refine C.blocks_apart hnew.valid hlive.2 (hnew.live htable) (fun heq => htable (heq ▸ hlive.1)) (ptr + i) ?_
    (Contract.holds_page (hnew.live htable) hin.1 hin.2)
  unfold Contract.block
  rw [Extent.holds_mk]
  omega

/-- A byte of the process's own is left alone by what is done for the process. -/
theorem Ledger.OwnByte.steady {a : Nat} (h : L.OwnByte p a) : L.Steady p a := by
  obtain ⟨b, use, howns, hdirect, hle, hlt⟩ := h
  refine .inr ⟨b, howns.live, fun howner => ?_, hle, hlt⟩
  obtain ⟨_, rfl⟩ := Owner.mk.inj (Option.some_inj.mp (howns.owner.symm.trans howner))
  exact hdirect

/-- Where the word of the page stays and the byte is left alone, the process sees what it saw. -/
theorem HeldBy.view_kept {t : Kernel H} {L' : Ledger} {sp' : Space} {P P' : Process} {T T' : Task}
    {D D' : DirectoryBlocks} {v : Nat} (h : HeldBy C s L p sp P T D) (h' : HeldBy C t L' p sp' P' T' D')
    (hdirectory : D'.directory = D.directory) (hopen' : OpenDirectory t.ram.mem D'.directory) (hv : v < 2 ^ 32)
    (hword : sp'.entry (v / pagingPageSize) = sp.entry (v / pagingPageSize))
    (hwritable : UserWritable s.ram.mem D.directory v)
    (hsame : t.ram.mem (physicalAddress s.ram.mem D.directory v) = s.ram.mem (physicalAddress s.ram.mem D.directory v)) :
    UserWritable t.ram.mem D.directory v ∧ userView t.ram.mem D.directory v = userView s.ram.mem D.directory v := by
  rw [← hdirectory]
  refine ⟨(h'.userWritable_iff hopen' hv).mpr ?_, ?_⟩
  · rw [hword, ← (h.tables.pageEntry hv).2]
    exact hwritable.2
  · unfold userView
    rw [Nat.mod_eq_of_lt hv, h'.tables.physicalAddress hv, hword, ← h.tables.physicalAddress hv, hsame, hdirectory]

end Contents

/-! ### What the program sees -/

variable {s : Lives H} {t : Kernel H} {ptr : Nat}

/-- **What a program asks for is new, zero and its own.** Every byte it gets it can write, and sees as 0; no process
could write it before. What the program could write apart from the new pages it sees as it was. -/
theorem request_fresh (hrun : Run (WorkStep A) (fun _ op => op.Inside) (Booted C held) s) (hp : s.live p)
    (hmalloc : processMalloc A p size s.kernel = .ok (ptr, t)) (hne : ptr ≠ 0) :
    ∃ directory, s.kernel.directoryOf p = some directory ∧ t.directoryOf p = some directory ∧
      (∀ i, i < size → UserWritable t.ram.mem directory (ptr + i) ∧ userView t.ram.mem directory (ptr + i) = 0) ∧
      (∀ q d v, s.live q → s.kernel.directoryOf q = some d → v < 2 ^ 32 → UserWritable s.kernel.ram.mem d v →
        ¬ (ptr ≤ physicalAddress s.kernel.ram.mem d v ∧ physicalAddress s.kernel.ram.mem d v < ptr + size)) ∧
      ∀ v, v < 2 ^ 32 → UserWritable s.kernel.ram.mem directory v →
        ¬ ProcessAllocation.Covers ⟨ptr, size⟩ (v / pagingPageSize) →
        UserWritable t.ram.mem directory v ∧ userView t.ram.mem directory v = userView s.kernel.ram.mem directory v := by
  obtain ⟨⟨L, hconfined⟩, hopens⟩ := open_of_run hrun
  have hpopulated := hconfined.accounted.populated
  obtain ⟨sp, hsp⟩ := hconfined.accounted.live p hp
  have hafter := open_of_run (.step hrun (show WorkOp.Inside (.call (.malloc p size)) from trivial)
    (.call (.malloc hp hmalloc)))
  have hzero := (processMalloc_zeroes hpopulated hsp size).returned hmalloc hne
  obtain ⟨_, hsteady, ⟨hnull, _⟩ | ⟨i, n, hi, _, _, hnew, hn, hroom, _, hpopulated'⟩⟩ :=
    (hpopulated.malloc hsp size).returned hmalloc
  · exact absurd hnull hne
  -- before and after, the directory is the same
  obtain ⟨P, T, D, hheld⟩ := hpopulated.accounts.held p sp hsp
  obtain ⟨P', T', D', hheld'⟩ := hpopulated'.accounts.held p _ (Function.update_self ..)
  have hdirectory : t.directoryOf p = s.kernel.directoryOf p :=
    ((processMalloc_sameDirectory hpopulated hsp size).returned hmalloc).directoryOf
  have hsame : D'.directory = D.directory := Option.some_inj.mp
    (hheld'.directoryOf.symm.trans (hdirectory.trans hheld.directoryOf))
  obtain ⟨d, hd, hopen⟩ := hopens p hp
  obtain rfl : d = D.directory := Option.some_inj.mp (hd.symm.trans hheld.directoryOf)
  obtain ⟨d, hd', hopen'⟩ := hafter.opens p hp
  obtain rfl : d = D'.directory := Option.some_inj.mp (hd'.symm.trans hheld'.directoryOf)
  have hlive : (L.malloc p sp i ptr size n).pages ptr = n := Function.update_self ..
  obtain ⟨halign, _, hlast⟩ := hpopulated'.accounts.placed.placed ptr (hlive.trans_ne hn)
  rw [hlive] at hlast
  refine ⟨D.directory, hd, hdirectory.trans hd, fun j hj => ?_, fun q d v hq hdq hv hwritable => ?_,
    fun v hv hwritable hcovers => ?_⟩
  · have hbound : ptr + j < 2 ^ 32 := by
      simp only [heapBaseAddress, heapMaxHeapSize] at hlast
      omega
    have hword : (sp.malloc i ptr size).entry ((ptr + j) / pagingPageSize) =
        (ptr + j) / pagingPageSize * pagingPageSize + rightsWritable := mapSelf_covered (by
      unfold ProcessAllocation.Covers
      simp only [heapBlockSize, pagingPageSize] at *
      omega)
    obtain ⟨hwritable, hphysical⟩ := hheld'.tables.writable_page hopen' hbound (Nat.mul_mod_left ..) (by
      simp only [pagingPageSize]
      omega) hword
    rw [← hsame]
    refine ⟨hwritable, ?_⟩
    unfold userView
    rw [Nat.mod_eq_of_lt hbound, hphysical, ← hzero j hj]
    refine congrArg t.ram.mem ?_
    simp only [pagingPageSize]
    omega
  · -- what a process can write is in a block that was there
    rintro ⟨hle, hlt⟩
    obtain ⟨b, use, howns, _, hle', hlt'⟩ := hconfined.own hq hdq hv hwritable
    have hbne : b ≠ ptr := fun heq => howns.live (heq ▸ hnew)
    have hpages : (L.malloc p sp i ptr size n).pages b = L.pages b := Function.update_of_ne hbne ..
    have hapart := hpopulated'.accounts.placed.apart b ptr (hpages.trans_ne howns.live) (hlive.trans_ne hn) hbne
    rw [hpages, hlive] at hapart
    omega
  · exact hheld.view_kept hheld' hsame hopen' hv (mapSelf_other hcovers) hwritable
      (hsteady _ (hconfined.own hp hd hv hwritable).steady)

/-- The last byte of the first request of a program. -/
theorem request_fresh_last : ∃ (s : Lives Ladder) (t : Kernel Ladder) (directory : Nat),
    processMalloc ladder 0x1000000 100 s.kernel = .ok (0x2060000, t) ∧ t.directoryOf 0x1000000 = some directory ∧
    UserWritable t.ram.mem directory 0x2060063 ∧ userView t.ram.mem directory 0x2060063 = 0 := by
  obtain ⟨s, t, u, P, h⟩ := exists_twoPrograms
  have hlive : s.live 0x1000000 := by
    cases h.request with
    | call hcall =>
      cases hcall with
      | malloc hp _ => exact hp
  obtain ⟨directory, _, hdirectory, hbytes, _⟩ := request_fresh h.first hlive h.granted (by decide)
  exact ⟨s, t.kernel, directory, h.granted, hdirectory, hbytes 99 (by decide)⟩

/-- **What a program gives back is out of its reach**: no page of it is present any more. What the program could write
apart from these pages it sees as it was. -/
theorem release_revokes {P : Process} {i : Nat} (hrun : Run (WorkStep A) (fun _ op => op.Inside) (Booted C held) s)
    (hp : s.live p) (hP : s.kernel.process p = some P) (hi : i < basicOSMaxAllocationsAllowedPerProcess)
    (hused : (P.allocations i).ptr ≠ 0) (hfree : processFree A p (P.allocations i).ptr s.kernel = .ok ((), t)) :
    ∃ directory, s.kernel.directoryOf p = some directory ∧ t.directoryOf p = some directory ∧
      (∀ v, v < 2 ^ 32 → (P.allocations i).Covers (v / pagingPageSize) → ¬ Present t.ram.mem directory v) ∧
      ∀ v, v < 2 ^ 32 → UserWritable s.kernel.ram.mem directory v →
        ¬ (P.allocations i).Covers (v / pagingPageSize) →
        UserWritable t.ram.mem directory v ∧ userView t.ram.mem directory v = userView s.kernel.ram.mem directory v := by
  obtain ⟨⟨L, hconfined⟩, hopens⟩ := open_of_run hrun
  have hpopulated := hconfined.accounted.populated
  obtain ⟨sp, hsp⟩ := hconfined.accounted.live p hp
  have hrec := hpopulated.recorded p sp hsp
  have hafter := open_of_run (.step hrun (show WorkOp.Inside (.call (.free p (P.allocations i).ptr)) from trivial)
    (.call (.free hp hfree)))
  have hsteady := (processFree_steady hpopulated hsp _).returned hfree
  obtain ⟨P₀, T, D, hheld⟩ := hpopulated.accounts.held p sp hsp
  obtain rfl : P = P₀ := Option.some_inj.mp (hP.symm.trans hheld.process)
  rw [hheld.allocation] at hused hfree ⊢
  have hfreed : ∃ L', L'.space p = some (sp.free i) ∧ Accounts C t L' := by
    obtain ⟨_, ⟨_, hnone, _⟩ | ⟨j, hj, hptr, haccounts⟩⟩ :=
      (processFree_spec hpopulated.accounts hsp hrec _).returned hfree
    · exact absurd rfl (hnone i ⟨hi, hused⟩)
    -- no other slot has the pointer
    have howner := (hrec.owned j hj).1
    rw [hptr, (hrec.owned i ⟨hi, hused⟩).1] at howner
    obtain ⟨_, hslot⟩ := Owner.mk.inj (Option.some_inj.mp howner)
    obtain rfl : i = j := Use.allocation.inj hslot
    exact ⟨_, Function.update_self .., haccounts⟩
  obtain ⟨L', hsp', haccounts⟩ := hfreed
  obtain ⟨P', T', D', hheld'⟩ := haccounts.held p _ hsp'
  have hdirectory : t.directoryOf p = s.kernel.directoryOf p :=
    ((processFree_sameDirectory hpopulated hsp _).returned hfree).directoryOf
  have hsame : D'.directory = D.directory := Option.some_inj.mp
    (hheld'.directoryOf.symm.trans (hdirectory.trans hheld.directoryOf))
  obtain ⟨d, hd, hopen⟩ := hopens p hp
  obtain rfl : d = D.directory := Option.some_inj.mp (hd.symm.trans hheld.directoryOf)
  obtain ⟨d, hd', hopen'⟩ := hafter.opens p hp
  obtain rfl : d = D'.directory := Option.some_inj.mp (hd'.symm.trans hheld'.directoryOf)
  refine ⟨D.directory, hd, hdirectory.trans hd, fun v hv hcovers hpresent => ?_, fun v hv hwritable hcovers => ?_⟩
  · -- the word of the page is its address
    have hpage := (hsame ▸ hpresent).2
    have hword : (sp.free i).entry (v / pagingPageSize) = v / pagingPageSize * heapBlockSize + 0 := mapSelf_covered hcovers
    rw [(hheld'.tables.pageEntry hv).2, hword] at hpage
    simp only [heapBlockSize] at hpage
    omega
  · exact hheld.view_kept hheld' hsame hopen' hv (mapSelf_other hcovers) hwritable
      (hsteady _ (hconfined.own hp hd hv hwritable).steady)

/-- The first request of a program, given back. -/
theorem release_revokes_first : ∃ (s : Lives Ladder) (t : Kernel Ladder) (directory : Nat),
    processFree ladder 0x1000000 0x2060000 s.kernel = .ok ((), t) ∧ t.directoryOf 0x1000000 = some directory ∧
    ¬ Present t.ram.mem directory 0x2060000 := by
  obtain ⟨s, t, u, P, h⟩ := exists_twoPrograms
  obtain ⟨L, hconfined⟩ := lives_confined_of_run h.requested
  obtain ⟨sp, hsp⟩ := hconfined.accounted.live _ h.live.1
  obtain ⟨_, v, hfree, _⟩ := (hconfined.accounted.populated.free hsp (P.allocations 0).ptr).returns
  have hslot : (P.allocations 0).ptr ≠ 0 ∧ (P.allocations 0).Covers (0x2060000 / pagingPageSize) := by
    rw [h.allocation]
    decide
  obtain ⟨directory, _, hdirectory, hgone, _⟩ :=
    release_revokes h.requested h.live.1 h.process (by decide) hslot.1 hfree
  rw [h.allocation] at hfree
  exact ⟨t, v, directory, hfree, hdirectory, hgone 0x2060000 (by decide) hslot.2⟩

end BasicOS

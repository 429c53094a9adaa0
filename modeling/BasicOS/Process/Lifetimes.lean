import BasicOS.Process.Residents

/-! Processes over their lives.

A run starts with nobody there and no file open, and takes loads, requests, releases and
terminations in any order; `live` are the processes that were loaded and have not been
terminated. In every state they are the residents of a ledger (`Lives.accounted`). A load that
fails may leave a block behind, which then belongs to nobody. -/
namespace BasicOS
open Lib Program

variable {H : Type} {A : Allocator H} {C : Contract A} {L L' : Ledger} {p : Nat}

/-! ### Runs -/

/-- The kernel, and the processes that were loaded and have not been terminated. -/
structure Lives (H : Type) where
  kernel : Kernel H
  live : Nat → Prop

inductive LifeOp where
  | load (vol : Volume) (junk : Uninitialised) (filename : List UInt8)
  | malloc (process size : Nat)
  | free (process ptr : Nat)
  | terminate (process : Nat)

/-- One operation that returns. -/
inductive LifeStep (A : Allocator H) (s : Lives H) : LifeOp → Lives H → Prop where
  | load {vol junk filename process t} (h : processLoadSwitch A vol junk filename s.kernel = .ok
    ((0, some process), t)) :
      LifeStep A s (.load vol junk filename) ⟨t, fun q => q = process ∨ s.live q⟩
  | loadFails {vol junk filename out t} (h : processLoadSwitch A vol junk filename s.kernel = .ok (out, t))
      (hneg : out.1 < 0) : LifeStep A s (.load vol junk filename) ⟨t, s.live⟩
  | malloc {p size ret t} (hp : s.live p) (h : processMalloc A p size s.kernel = .ok (ret, t)) :
      LifeStep A s (.malloc p size) ⟨t, s.live⟩
  | free {p ptr t} (hp : s.live p) (h : processFree A p ptr s.kernel = .ok ((), t)) :
      LifeStep A s (.free p ptr) ⟨t, s.live⟩
  | terminate {p res t} (hp : s.live p) (h : processTerminate A p s.kernel = .ok (res, t)) :
      LifeStep A s (.terminate p) ⟨t, fun q => s.live q ∧ q ≠ p⟩

/-- A valid heap, no open file, and nobody there. -/
structure Nobody (C : Contract A) (s : Lives H) : Prop where
  valid : C.Valid s.kernel.ram.heap
  closed : ∀ i, s.kernel.files.fileDescriptors i = none
  live : ∀ p, ¬ s.live p

/-- The states reached. -/
abbrev Lived (C : Contract A) : Lives H → Prop := Run (LifeStep A) (fun _ _ => True) (Nobody C)

/-! ### The invariant -/

/-- The ledger's residents are the live processes, and no file is open. -/
structure Lives.Accounted (C : Contract A) (s : Lives H) (L : Ledger) : Prop where
  populated : Populated C s.kernel L
  live : ∀ p, s.live p → ∃ sp, L.space p = some sp
  closed : ∀ i, s.kernel.files.fileDescriptors i = none

/-- A load of a free slot that fails leaves the residents, and at most blocks nobody uses. -/
theorem LoadOutcome.stays {vol : Volume} {junk : Uninitialised} {filename : List UInt8} {slot : Int} {s t : Kernel H}
    {out : Int × Option Nat} (hout : LoadOutcome C vol junk filename slot s out t) (hneg : out.1 < 0)
    (h : Populated C s L) (hclosed : ∀ i, s.files.fileDescriptors i = none) :
    Populated C t {L with pages := C.live t.ram.heap} ∧ t.files.fileDescriptors = s.files.fileDescriptors ∧
      ∃ xs, Taken C s.ram t.ram xs := by
  have hrefl := Taken.refl (C := C) h.accounts.valid
  -- the block of the new structure is nobody's
  have hnew : ∀ process, C.pages s.ram process = 0 → L.space process = none := by
    intro process hfresh
    by_contra hsome
    obtain ⟨sp, hsp⟩ := Option.ne_none_iff_exists'.mp hsome
    obtain ⟨P, hP⟩ := h.resident process sp hsp
    exact h.accounts.live_iff.mp hP.self.live hfresh
  have hfresh : ∀ process r, process ≠ 0 → kzalloc A sizeofProcess s.ram = .ok (process, r) →
      Taken C s.ram r [process] ∧ C.pages s.ram process = 0 := by
    intro process r hne hrequest
    obtain ⟨hnull, _⟩ | ⟨_, htaken, _⟩ := (hrefl.kzalloc sizeofProcess).returned hrequest
    · exact absurd hnull hne
    · exact ⟨htaken, (htaken.fresh process (List.mem_singleton_self _)).1⟩
  cases hout with
  | @noProcess r hrequest =>
    obtain ⟨_, htaken⟩ | ⟨hne, _⟩ := (hrefl.kzalloc sizeofProcess).returned hrequest
    · have hnull : C.pages s.ram 0 = 0 := by
        by_contra hlive
        exact Contract.ne_null h.accounts.valid hlive rfl
      exact ⟨h.framed (hnew 0 hnull) ((LoadFrame.refl s).withRam r) htaken, rfl, _, htaken⟩
    · exact absurd rfl hne
  | @unstarted process r u hne hrequest hunstarted =>
    obtain ⟨htaken, hfree⟩ := hfresh process r hne hrequest
    obtain ⟨r', res, files, hrefused, hclose, rfl⟩ := hunstarted
    obtain ⟨_, htaken'⟩ | ⟨hne', _⟩ := ((Taken.refl htaken.valid).kzalloc sizeofElfFile).returned hrefused
    · -- whatever the descriptor was, it is closed
      have hfd : (⟨r', s.files.fileDescriptors⟩ : Files H).fileGetFd junk.fd = none := by
        unfold Files.fileGetFd
        split
        · rfl
        · exact hclosed _
      rw [show ({((s.withRam r).putProcess process (some zeroProcess)).files with ram := r'} : Files H) =
        ⟨r', s.files.fileDescriptors⟩ from rfl, fclose_closed hfd] at hclose
      obtain ⟨_, rfl⟩ := Prod.mk.inj (Except.ok.inj hclose)
      have hback : Taken C s.ram (released A process r') [] := (htaken.trans htaken').kfree
      exact ⟨h.framed (hnew process hfree) (((((LoadFrame.refl s).withRam r).putProcess _).withRam _).putProcess none) hback,
        rfl, _, hback⟩
    · exact absurd rfl hne'
  | @failed process r res t other hne hrequest _ _ frame _ taken =>
    exact ⟨h.framed (hnew process (hfresh process r hne hrequest).2) frame taken, frame.fileDescriptors, _, taken⟩
  | loaded => exact absurd hneg (by simp)

/-- A load that fails leaves the residents. -/
theorem processLoadSwitch_stays {vol : Volume} {filename : List UInt8} {s : Kernel H} (junk : Uninitialised)
    (h : Populated C s L) (hclosed : ∀ i, s.files.fileDescriptors i = none) :
    Ensures (processLoadSwitch A vol junk filename) (fun out t => out.1 < 0 →
      Populated C t {L with pages := C.live t.ram.heap} ∧ t.files.fileDescriptors = s.files.fileDescriptors ∧
        ∃ xs, Taken C s.ram t.ram xs) s := by
  have hload : Ensures (processLoad A vol junk filename) (fun out t => out.1 < 0 →
      Populated C t {L with pages := C.live t.ram.heap} ∧ t.files.fileDescriptors = s.files.fileDescriptors ∧
        ∃ xs, Taken C s.ram t.ram xs) s := by
    unfold processLoad
    rw [Ensures, wp_bind, wp_get]
    dsimp only
    split
    · -- no free slot
      refine fun _ => ⟨?_, rfl, _, Taken.refl h.accounts.valid⟩
      have hpages : ({L with pages := C.live s.ram.heap} : Ledger) = L := by
        rw [← h.accounts.pages]
      rw [hpages]
      exact h
    rename_i hslot
    have hfree : s.getProcess s.getFreeProcessSlot = 0 := getProcess_freeSlot hslot
    exact (processLoadForSlot_outcome junk _ h.accounts.valid hfree).mono fun out t hout hneg =>
      hout.stays hneg h hclosed
  unfold processLoadSwitch
  refine wp.bind hload fun out t hstays => ?_
  rw [wp_bind, wp_when]
  refine ⟨fun hzero => ?_, fun _ => hstays⟩
  exact fun hneg => absurd hneg (by omega)

variable {s t : Lives H}

theorem Nobody.accounted (h : Nobody C s) : s.Accounted C (Ledger.empty (C.live s.kernel.ram.heap)) :=
  ⟨populated_empty h.valid, fun p hp => absurd hp (h.live p), h.closed⟩

/-- The spaces of the others after a transaction of one process. -/
theorem Lives.Accounted.others {sp : Option Space} (h : s.Accounted C L)
    (hspace : L'.space = Function.update L.space p sp)
    {q : Nat} (hq : s.live q) (hqp : q ≠ p) : ∃ sq, L'.space q = some sq := by
  obtain ⟨sq, hsq⟩ := h.live q hq
  exact ⟨sq, by rw [hspace, Function.update_of_ne hqp, hsq]⟩

attribute [local irreducible] processTerminate processLoadSwitch

/-- What an operation does to the ledger. -/
inductive Ledger.Transaction (C : Contract A) (s t : Kernel H) (L : Ledger) : LifeOp → Ledger → Prop where
  | arrival {vol junk filename process P other D chunk entry u processes current}
      (state : t = {u with processes := processes, currentProcess := current})
      (run : processLoadSwitch A vol junk filename s = .ok ((0, some process), t))
      (new : NewProcess C vol filename s.ram process P other D chunk entry u)
      (arrival : L.Arrival process (newSpace entry) (arrived L D chunk process P other entry (C.live u.ram.heap)))
      (resident : Resident u (arrived L D chunk process P other entry (C.live u.ram.heap)) process P) :
      Ledger.Transaction C s t L (.load vol junk filename) (arrived L D chunk process P other entry (C.live u.ram.heap))
  | kept {op pages} (kept : ∀ b, L.pages b ≠ 0 → pages b = L.pages b) :
      Ledger.Transaction C s t L op {L with pages := pages}
  | malloc {q sp i ptr size n} (space : L.space q = some sp) (slot : i < basicOSMaxAllocationsAllowedPerProcess)
      (empty : (sp.allocation i).ptr = 0) (nonNull : ptr ≠ 0) (fresh : L.pages ptr = 0) (pages : n ≠ 0)
      (room : size ≤ n * heapBlockSize) : Ledger.Transaction C s t L (.malloc q size) (L.malloc q sp i ptr size n)
  | free {q ptr sp i} (space : L.space q = some sp) (holds : sp.Holds i) :
      Ledger.Transaction C s t L (.free q ptr) (L.free q sp i)
  | departure {q new} (departure : L.Departure q new) : Ledger.Transaction C s t L (.terminate q) new

/-- **Every step is a transaction**, and the accounts are kept. -/
theorem Lives.Accounted.transact {op : LifeOp} (h : s.Accounted C L) (hstep : LifeStep A s op t) :
    ∃ L', t.Accounted C L' ∧ L.Transaction C s.kernel t.kernel op L' := by
  cases hstep with
  | @load vol junk filename process t hload =>
    rcases (processLoadSwitch_loads junk h.populated.accounts.valid).returned hload with hneg | ⟨p, hout, _, hloads⟩
    · exact absurd hneg (by simp)
    obtain ⟨_, hp⟩ := Prod.mk.inj hout
    obtain rfl := Option.some_inj.mp hp
    cases hloads with
    | @mk P other D chunk entry u processes current frame new =>
      obtain ⟨harrival, hpopulated, hresident⟩ := h.populated.arrival frame new
      refine ⟨_, ⟨hpopulated.congr rfl rfl rfl rfl, ?_, fun i => ?_⟩, .arrival rfl hload new harrival hresident⟩
      · rintro q (rfl | hq)
        · exact ⟨newSpace entry, by rw [harrival.space, Function.update_self]⟩
        · refine h.others harrival.space hq fun hqp => ?_
          obtain ⟨sq, hsq⟩ := h.live q hq
          rw [hqp, harrival.new] at hsq
          cases hsq
      · exact (congrFun frame.fileDescriptors i).trans (h.closed i)
  | loadFails hload hneg =>
    obtain ⟨hpopulated, hfds, xs, htaken⟩ :=
      (processLoadSwitch_stays _ h.populated h.closed).returned hload hneg
    exact ⟨_, ⟨hpopulated, h.live, fun i => (congrFun hfds i).trans (h.closed i)⟩, .kept (h.populated.kept_taken htaken)⟩
  | @malloc p size ret t hp hmalloc =>
    obtain ⟨sp, hsp⟩ := h.live p hp
    obtain ⟨hslots, _, hcases⟩ := ((h.populated.malloc hsp size).mono (fun _ _ h => h) fun _ _ =>
      trivial).returned hmalloc
    have hclosed : ∀ i, t.files.fileDescriptors i = none := fun i =>
      (congrFun hslots.fileDescriptors i).trans (h.closed i)
    rcases hcases with ⟨_, hpopulated, _⟩ | ⟨i, n, hi, hempty, hne, hfresh, hn, hsize, _, hpopulated⟩
    · exact ⟨L, ⟨hpopulated, h.live, hclosed⟩, .kept fun _ _ => rfl⟩
    · refine ⟨_, ⟨hpopulated, fun q hq => ?_, hclosed⟩, .malloc hsp hi hempty hne hfresh hn hsize⟩
      by_cases hqp : q = p
      · exact ⟨_, by rw [hqp]; exact Function.update_self ..⟩
      · exact h.others rfl hq hqp
  | @free p ptr t hp hfree =>
    obtain ⟨sp, hsp⟩ := h.live p hp
    obtain ⟨hslots, hcases⟩ := (h.populated.free hsp ptr).returned hfree
    have hclosed : ∀ i, t.files.fileDescriptors i = none := fun i =>
      (congrFun hslots.fileDescriptors i).trans (h.closed i)
    rcases hcases with hpopulated | ⟨i, hi, _, hpopulated⟩
    · exact ⟨L, ⟨hpopulated, h.live, hclosed⟩, .kept fun _ _ => rfl⟩
    · refine ⟨_, ⟨hpopulated, fun q hq => ?_, hclosed⟩, .free hsp hi⟩
      by_cases hqp : q = p
      · exact ⟨_, by rw [hqp]; exact Function.update_self ..⟩
      · exact h.others rfl hq hqp
  | @terminate p res t hp hterminate =>
    obtain ⟨sp, hsp⟩ := h.live p hp
    obtain ⟨L', hdeparture, hpopulated, hfds, _⟩ := (processTerminate_departure h.populated hsp).returned hterminate
    exact ⟨L', ⟨hpopulated, fun q hq => h.others hdeparture.space hq.1 hq.2, fun i =>
      (congrFun hfds i).trans (h.closed i)⟩, .departure hdeparture⟩

theorem Lives.accounted (hrun : Lived C s) : ∃ L, s.Accounted C L := by
  refine hrun.invariant (I := fun s => ∃ L, s.Accounted C L) (fun s h => ⟨_, h.accounted⟩) fun s op t h _ hstep => ?_
  obtain ⟨L, h⟩ := h
  obtain ⟨L', h', _⟩ := h.transact hstep
  exact ⟨L', h'⟩

end BasicOS

import BasicOS.Process.Kernel
import BasicOS.Memory.Contract

/-! A ledger of the heap: who owns which block, and what each process can reach.

This is the abstract account of processes. A `Ledger` has the length of every live
block, its owner, and for each process a `Space`: the word of every page of its address
space and its recorded allocations. The transactions are an allocation, a release, the
arrival of a process and its departure; memory, tables and lists do not occur.

`Recorded` and `Isolated` are what the kernel is to guarantee of every space: recorded
allocations are the process's own blocks mapped to themselves, and what a process can write
is its own. They survive an allocation and a release of the process itself, and every
transaction of another (`Ledger.Keeps`). -/
namespace BasicOS

/-- What a process uses a block for. -/
inductive Use where
  | paging
  | task
  | process
  | elfFile
  | image
  | stack
  | allocation (slot : Nat)
deriving DecidableEq, Repr

structure Owner where
  process : Nat
  use : Use
deriving DecidableEq, Repr

/-- What a process sees: the word of every page, and its allocation slots. -/
structure Space where
  entry : Nat → Nat
  allocation : Nat → ProcessAllocation

structure Ledger where
  pages : Nat → Nat
  owner : Nat → Option Owner
  space : Nat → Option Space

/-- Present, user-accessible and writable. -/
abbrev rightsWritable : Nat := 7

/-! ### Transactions -/

/-- The pages of `[ptr, ptr + size)` mapped to themselves with these rights. -/
def mapSelf (entry : Nat → Nat) (rights ptr size : Nat) : Nat → Nat := fun k =>
  if ptr ≤ k * heapBlockSize ∧ k * heapBlockSize < ptr + size then k * heapBlockSize + rights else entry k

def Space.malloc (sp : Space) (i ptr size : Nat) : Space :=
  ⟨mapSelf sp.entry rightsWritable ptr size, Function.update sp.allocation i ⟨ptr, size⟩⟩

def Space.free (sp : Space) (i : Nat) : Space :=
  ⟨mapSelf sp.entry 0 (sp.allocation i).ptr (sp.allocation i).size, Function.update sp.allocation i ⟨0, 0⟩⟩

/-- Process `p` records a new block of `n` pages in slot `i`. -/
def Ledger.malloc (L : Ledger) (p : Nat) (sp : Space) (i ptr size n : Nat) : Ledger where
  pages := Function.update L.pages ptr n
  owner := Function.update L.owner ptr (some ⟨p, .allocation i⟩)
  space := Function.update L.space p (some (sp.malloc i ptr size))

@[simp] theorem Ledger.malloc_space (L : Ledger) (p : Nat) (sp : Space) (i ptr size n : Nat) :
    (L.malloc p sp i ptr size n).space p = some (sp.malloc i ptr size) := Function.update_self ..

@[simp] theorem Ledger.malloc_pages (L : Ledger) (p : Nat) (sp : Space) (i ptr size n : Nat) :
    (L.malloc p sp i ptr size n).pages ptr = n := Function.update_self ..

/-- Process `p` gives back the block of slot `i`. -/
def Ledger.free (L : Ledger) (p : Nat) (sp : Space) (i : Nat) : Ledger where
  pages := Function.update L.pages (sp.allocation i).ptr 0
  owner := L.owner
  space := Function.update L.space p (some (sp.free i))

/-- Process `p` arrives with new blocks; nothing live before changes. -/
structure Ledger.Arrival (L : Ledger) (p : Nat) (sp : Space) (L' : Ledger) : Prop where
  new : L.space p = none
  kept : ∀ b, L.pages b ≠ 0 → L'.pages b = L.pages b ∧ L'.owner b = L.owner b
  space : L'.space = Function.update L.space p (some sp)

/-- Process `p` leaves; only blocks of its own are released. -/
structure Ledger.Departure (L : Ledger) (p : Nat) (L' : Ledger) : Prop where
  kept : ∀ b, L'.pages b = L.pages b ∨ L'.pages b = 0 ∧ ∃ use, L.owner b = some ⟨p, use⟩
  owner : L'.owner = L.owner
  space : L'.space = Function.update L.space p none

/-! ### What is to hold of every ledger -/

/-- Blocks are whole pages of the heap, and share none. -/
structure Ledger.Placed (L : Ledger) : Prop where
  placed : ∀ b, L.pages b ≠ 0 → b % heapBlockSize = 0 ∧ heapBaseAddress ≤ b ∧
    b + L.pages b * heapBlockSize ≤ heapBaseAddress + heapMaxHeapSize
  apart : ∀ b c, L.pages b ≠ 0 → L.pages c ≠ 0 → b ≠ c →
    b + L.pages b * heapBlockSize ≤ c ∨ c + L.pages c * heapBlockSize ≤ b

/-- Slot `i` of the space holds an allocation. -/
structure Space.Holds (sp : Space) (i : Nat) : Prop where
  slot : i < basicOSMaxAllocationsAllowedPerProcess
  used : (sp.allocation i).ptr ≠ 0

/-- Page `k` lies in the range of the allocation. -/
def ProcessAllocation.Covers (a : ProcessAllocation) (k : Nat) : Prop :=
  a.ptr ≤ k * heapBlockSize ∧ k * heapBlockSize < a.ptr + a.size

/-- The recorded allocations of `p` are blocks of its own, mapped to themselves. -/
structure Ledger.Recorded (L : Ledger) (p : Nat) (sp : Space) : Prop where
  owned : ∀ i, sp.Holds i → L.owner (sp.allocation i).ptr = some ⟨p, .allocation i⟩ ∧
    L.pages (sp.allocation i).ptr ≠ 0 ∧
    (sp.allocation i).size ≤ L.pages (sp.allocation i).ptr * heapBlockSize
  mapped : ∀ i k, sp.Holds i → (sp.allocation i).Covers k → sp.entry k = k * heapBlockSize + rightsWritable
  empty : ∀ i, i < basicOSMaxAllocationsAllowedPerProcess → (sp.allocation i).ptr = 0 → (sp.allocation i).size = 0

/-- The word gives a present, user-accessible and writable page. -/
def Writable (word : Nat) : Prop := word % 8 = rightsWritable

/-- The page a word gives. -/
def pageOf (word : Nat) : Nat := word - word % heapBlockSize

/-- The block `b` of `p` backs page `k` of the space: its image, its stack, or a recorded
allocation that covers the page. -/
inductive Ledger.Backs (L : Ledger) (p : Nat) (sp : Space) (k b : Nat) : Prop where
  | image (h : L.owner b = some ⟨p, .image⟩)
  | stack (h : L.owner b = some ⟨p, .stack⟩)
  | allocation (i : Nat) (hi : sp.Holds i) (hb : (sp.allocation i).ptr = b) (hk : (sp.allocation i).Covers k)

/-- What `p` can write lies in blocks of `p`. -/
def Ledger.Isolated (L : Ledger) (p : Nat) (sp : Space) : Prop :=
  ∀ k, k < 2 ^ 20 → Writable (sp.entry k) → ∃ b, L.pages b ≠ 0 ∧ b ≤ pageOf (sp.entry k) ∧
    pageOf (sp.entry k) < b + L.pages b * heapBlockSize ∧ L.Backs p sp k b

/-! ### Words -/

theorem pageOf_word {k bits : Nat} (h : bits < heapBlockSize) : pageOf (k * heapBlockSize + bits) = k * heapBlockSize := by
  unfold pageOf
  simp only [heapBlockSize] at *
  omega

theorem mapSelf_covered {entry : Nat → Nat} {rights ptr size k : Nat} (h : ProcessAllocation.Covers ⟨ptr, size⟩ k) :
    mapSelf entry rights ptr size k = k * heapBlockSize + rights := if_pos h

theorem mapSelf_other {entry : Nat → Nat} {rights ptr size k : Nat} (h : ¬ ProcessAllocation.Covers ⟨ptr, size⟩ k) :
    mapSelf entry rights ptr size k = entry k := if_neg h

instance (a : ProcessAllocation) (k : Nat) : Decidable (a.Covers k) := by
  unfold ProcessAllocation.Covers
  infer_instance

/-! ### Blocks kept

A transaction of one process keeps the blocks of all others, and every space that is not
its own keeps what it had. -/

variable {L L' : Ledger} {p q i ptr size n : Nat} {sp sq : Space}

/-- The live blocks of `p` are still live in `L'`, and still its own. -/
def Ledger.Keeps (L L' : Ledger) (p : Nat) : Prop :=
  ∀ b use, L.pages b ≠ 0 → L.owner b = some ⟨p, use⟩ → L'.pages b = L.pages b ∧ L'.owner b = L.owner b

theorem Ledger.Recorded.keeps (h : L.Recorded p sp) (hkeep : L.Keeps L' p) : L'.Recorded p sp := by
  refine ⟨fun i hi => ?_, h.mapped, h.empty⟩
  obtain ⟨howner, hlive, hroom⟩ := h.owned i hi
  obtain ⟨hpages, howner'⟩ := hkeep _ _ hlive howner
  rw [hpages, howner']
  exact ⟨howner, hlive, hroom⟩

/-- The block that backs a page is owned. -/
theorem Ledger.Backs.owned {k b : Nat} (h : L.Backs p sp k b) (hrec : L.Recorded p sp) :
    ∃ use, L.owner b = some ⟨p, use⟩ := by
  cases h with
  | image h => exact ⟨_, h⟩
  | stack h => exact ⟨_, h⟩
  | allocation i hi hb hk => exact ⟨_, hb ▸ (hrec.owned i hi).1⟩

theorem Ledger.Isolated.keeps (h : L.Isolated p sp) (hrec : L.Recorded p sp) (hkeep : L.Keeps L' p) :
    L'.Isolated p sp := by
  intro k hk hw
  obtain ⟨b, hlive, h1, h2, hback⟩ := h k hk hw
  obtain ⟨use, howner⟩ := hback.owned hrec
  obtain ⟨hpages, howner'⟩ := hkeep b use hlive howner
  refine ⟨b, by rwa [hpages], h1, by rwa [hpages], ?_⟩
  cases hback with
  | image h => exact .image (howner' ▸ h)
  | stack h => exact .stack (howner' ▸ h)
  | allocation i hi hb hk => exact .allocation i hi hb hk

theorem Ledger.keeps_malloc (hfree : L.pages ptr = 0) (q : Nat) : L.Keeps (L.malloc p sp i ptr size n) q := by
  intro b use hb _
  have hne : b ≠ ptr := fun heq => hb (heq ▸ hfree)
  exact ⟨Function.update_of_ne hne .., Function.update_of_ne hne ..⟩

theorem Ledger.keeps_free (hrec : L.Recorded p sp) (hi : sp.Holds i) (hq : q ≠ p) : L.Keeps (L.free p sp i) q := by
  intro b use hb howner
  refine ⟨Function.update_of_ne (fun heq => hq ?_) .., rfl⟩
  have := (hrec.owned i hi).1
  rw [← heq, howner] at this
  simpa using congrArg (Option.map Owner.process) this

theorem Ledger.Arrival.keeps (h : L.Arrival p sp L') (q : Nat) : L.Keeps L' q := fun b _ hb _ => h.kept b hb

theorem Ledger.Departure.keeps (h : L.Departure p L') (hq : q ≠ p) : L.Keeps L' q := by
  intro b use _ howner
  refine ⟨(h.kept b).resolve_right ?_, by rw [h.owner]⟩
  rintro ⟨_, use', howner'⟩
  rw [howner] at howner'
  exact hq (by simpa using congrArg (Option.map Owner.process) howner')

/-- What holds of every space after a transaction of one process: its own, and the others'. -/
theorem Ledger.updated_space {P : Nat → Space → Prop} {new : Option Space}
    (hspace : L'.space = Function.update L.space p new)
    (hother : ∀ q sq, q ≠ p → L.space q = some sq → P q sq) (hown : ∀ sp, new = some sp → P p sp) :
    ∀ q sq, L'.space q = some sq → P q sq := by
  intro q sq hq
  rw [hspace] at hq
  by_cases hqp : q = p
  · subst hqp
    rw [Function.update_self] at hq
    exact hown sq hq
  · rw [Function.update_of_ne hqp] at hq
    exact hother q sq hqp hq

/-- What held of every space before, after a transaction of one process. -/
theorem Ledger.forall_space {P : Ledger → Nat → Space → Prop} {new : Option Space}
    (h : ∀ q sq, L.space q = some sq → P L q sq) (hspace : L'.space = Function.update L.space p new)
    (hother : ∀ q sq, q ≠ p → L.space q = some sq → P L q sq → P L' q sq) (hown : ∀ sp, new = some sp → P L' p sp) :
    ∀ q sq, L'.space q = some sq → P L' q sq :=
  Ledger.updated_space hspace (fun q sq hqp hq => hother q sq hqp hq (h q sq hq)) hown

/-! ### An allocation -/

/-- Recorded allocations of different slots have different pointers. -/
theorem Ledger.Recorded.ptr_inj {j : Nat} (hp : L.Recorded p sp) (hq : L.Recorded q sq) (hi : sp.Holds i)
    (hj : sq.Holds j) (heq : (sp.allocation i).ptr = (sq.allocation j).ptr) : p = q ∧ i = j := by
  have hi' := (hp.owned i hi).1
  rw [heq, (hq.owned j hj).1] at hi'
  simp only [Option.some.injEq, Owner.mk.injEq, Use.allocation.injEq] at hi'
  exact ⟨hi'.1.symm, hi'.2.symm⟩

/-- Ranges in different live blocks share no page. -/
theorem Ledger.Placed.covers_ne (h : L.Placed) {a c : ProcessAllocation} (ha : L.pages a.ptr ≠ 0)
    (hc : L.pages c.ptr ≠ 0) (hne : a.ptr ≠ c.ptr) (hasize : a.size ≤ L.pages a.ptr * heapBlockSize)
    (hcsize : c.size ≤ L.pages c.ptr * heapBlockSize) {k : Nat} (hak : a.Covers k) : ¬ c.Covers k := by
  intro hck
  unfold ProcessAllocation.Covers at *
  have := h.apart _ _ ha hc hne
  omega

/-- The other slots of a process after one of them changed. -/
theorem Space.holds_update {entry : Nat → Nat} {a : ProcessAllocation} {j : Nat} (hji : j ≠ i) :
    Space.Holds ⟨entry, Function.update sp.allocation i a⟩ j ↔ sp.Holds j := by
  constructor
  · rintro ⟨hj, hused⟩
    exact ⟨hj, by simpa [Function.update_of_ne hji] using hused⟩
  · rintro ⟨hj, hused⟩
    exact ⟨hj, by simpa [Function.update_of_ne hji] using hused⟩

/-- A new block in an empty slot is recorded. -/
theorem Ledger.Recorded.malloc (h : L.Recorded p sp) (hptr : ptr ≠ 0) (hfree : L.pages ptr = 0) (hn : n ≠ 0)
    (hsize : size ≤ n * heapBlockSize) (hplaced : (L.malloc p sp i ptr size n).Placed) :
    (L.malloc p sp i ptr size n).Recorded p (sp.malloc i ptr size) := by
  have hself : (L.malloc p sp i ptr size n).pages ptr = n := Function.update_self ..
  have hkept := h.keeps (show L.Keeps (L.malloc p sp i ptr size n) p from Ledger.keeps_malloc hfree p)
  refine ⟨fun j hj => ?_, fun j k hj hk => ?_, fun j hj hnull => ?_⟩
  · by_cases hji : j = i
    · subst hji
      simp only [Space.malloc, Function.update_self, hself]
      exact ⟨Function.update_self .., hn, hsize⟩
    · simp only [Space.malloc, Function.update_of_ne hji]
      exact hkept.owned j ((Space.holds_update hji).mp hj)
  · by_cases hji : j = i
    · subst hji
      simp only [Space.malloc, Function.update_self] at hk ⊢
      exact mapSelf_covered hk
    · have hj' := (Space.holds_update hji).mp hj
      simp only [Space.malloc, Function.update_of_ne hji] at hk ⊢
      obtain ⟨_, hlive, hroom⟩ := hkept.owned j hj'
      rw [mapSelf_other fun hcov => ?_]
      · exact h.mapped j k hj' hk
      · refine hplaced.covers_ne (c := ⟨ptr, size⟩) hlive ?_
          (fun heq => (h.owned j hj').2.1 (heq ▸ hfree)) hroom ?_ hk hcov
        · rwa [hself]
        · rwa [hself]
  · by_cases hji : j = i
    · subst hji
      simp [Space.malloc, hptr] at hnull
    · simp only [Space.malloc, Function.update_of_ne hji] at hnull ⊢
      exact h.empty j hj hnull

/-- A page of the new block is backed by it. -/
theorem Ledger.Isolated.malloc (h : L.Isolated p sp) (hrec : L.Recorded p sp)
    (hi : i < basicOSMaxAllocationsAllowedPerProcess) (hempty : (sp.allocation i).ptr = 0) (hptr : ptr ≠ 0)
    (hfree : L.pages ptr = 0) (hn : n ≠ 0) (hsize : size ≤ n * heapBlockSize) :
    (L.malloc p sp i ptr size n).Isolated p (sp.malloc i ptr size) := by
  have hself : (L.malloc p sp i ptr size n).pages ptr = n := Function.update_self ..
  intro k hk hw
  by_cases hcov : ProcessAllocation.Covers ⟨ptr, size⟩ k
  · have hpage : pageOf ((sp.malloc i ptr size).entry k) = k * heapBlockSize := by
      simp only [Space.malloc, mapSelf_covered hcov]
      exact pageOf_word (by decide)
    refine ⟨ptr, by rwa [hself], ?_, ?_, .allocation i ⟨hi, ?_⟩ ?_ ?_⟩
    · rw [hpage]
      exact hcov.1
    · rw [hpage, hself]
      have := hcov.2
      simp only at this
      omega
    · simpa [Space.malloc] using hptr
    · simp [Space.malloc]
    · simpa [Space.malloc] using hcov
  · have hentry : (sp.malloc i ptr size).entry k = sp.entry k := mapSelf_other hcov
    rw [hentry] at hw ⊢
    obtain ⟨b, hlive, h1, h2, hback⟩ := h.keeps hrec (Ledger.keeps_malloc hfree p) k hk hw
    refine ⟨b, hlive, h1, h2, ?_⟩
    cases hback with
    | image h => exact .image h
    | stack h => exact .stack h
    | allocation j hj hb hjk =>
      have hji : j ≠ i := fun heq => hj.used (heq ▸ hempty)
      refine .allocation j ((Space.holds_update hji).mpr hj) ?_ ?_
      · simpa [Space.malloc, Function.update_of_ne hji] using hb
      · simpa [Space.malloc, Function.update_of_ne hji] using hjk

/-! ### A release -/

/-- The ranges of two slots share no page. -/
theorem Ledger.Recorded.covers_ne (h : L.Recorded p sp) (hL : L.Placed) {j k : Nat} (hi : sp.Holds i) (hj : sp.Holds j)
    (hji : j ≠ i) (hk : (sp.allocation j).Covers k) : ¬ (sp.allocation i).Covers k := by
  obtain ⟨_, hlive, hroom⟩ := h.owned i hi
  obtain ⟨_, hlive', hroom'⟩ := h.owned j hj
  exact hL.covers_ne hlive' hlive (fun heq => hji (h.ptr_inj h hj hi heq).2) hroom' hroom hk

theorem Ledger.Recorded.free (h : L.Recorded p sp) (hL : L.Placed) (hi : sp.Holds i) :
    (L.free p sp i).Recorded p (sp.free i) := by
  refine ⟨fun j hj => ?_, fun j k hj hk => ?_, fun j hj hnull => ?_⟩
  · by_cases hji : j = i
    · subst hji
      exact absurd (by simp [Space.free]) hj.used
    · have hj' := (Space.holds_update hji).mp hj
      obtain ⟨howner, hlive, hroom⟩ := h.owned j hj'
      have hpages : (L.free p sp i).pages (sp.allocation j).ptr = L.pages (sp.allocation j).ptr :=
        Function.update_of_ne (fun heq => hji (h.ptr_inj h hj' hi heq).2) ..
      simp only [Space.free, Function.update_of_ne hji, hpages]
      exact ⟨howner, hlive, hroom⟩
  · by_cases hji : j = i
    · subst hji
      exact absurd (by simp [Space.free]) hj.used
    · have hj' := (Space.holds_update hji).mp hj
      simp only [Space.free, Function.update_of_ne hji] at hk ⊢
      rw [mapSelf_other (h.covers_ne hL hi hj' hji hk)]
      exact h.mapped j k hj' hk
  · by_cases hji : j = i
    · subst hji
      simp [Space.free]
    · simp only [Space.free, Function.update_of_ne hji] at hnull ⊢
      exact h.empty j hj hnull

/-- No page is left that the released block backed. -/
theorem Ledger.Isolated.free (h : L.Isolated p sp) (hrec : L.Recorded p sp) (hi : sp.Holds i) :
    (L.free p sp i).Isolated p (sp.free i) := by
  intro k hk hw
  by_cases hcov : (sp.allocation i).Covers k
  · exfalso
    simp only [Space.free, mapSelf_covered hcov, Writable, heapBlockSize, rightsWritable] at hw
    omega
  have hentry : (sp.free i).entry k = sp.entry k := mapSelf_other hcov
  rw [hentry] at hw ⊢
  obtain ⟨b, hlive, h1, h2, hback⟩ := h k hk hw
  have hother : b ≠ (sp.allocation i).ptr := by
    intro heq
    have howner := (hrec.owned i hi).1
    rw [← heq] at howner
    cases hback with
    | image h => simp [h] at howner
    | stack h => simp [h] at howner
    | allocation j hj hb hjk =>
      obtain rfl : j = i := (hrec.ptr_inj hrec hj hi (hb.trans heq)).2
      exact hcov hjk
  have hpages : (L.free p sp i).pages b = L.pages b := Function.update_of_ne hother ..
  refine ⟨b, by rwa [hpages], h1, by rwa [hpages], ?_⟩
  cases hback with
  | image h => exact .image h
  | stack h => exact .stack h
  | allocation j hj hb hjk =>
    have hji : j ≠ i := fun heq => hother (heq ▸ hb.symm)
    refine .allocation j ((Space.holds_update hji).mpr hj) ?_ ?_
    · simpa [Space.free, Function.update_of_ne hji] using hb
    · simpa [Space.free, Function.update_of_ne hji] using hjk

end BasicOS

import BasicOS.Memory.KHeap
import BasicOS.Heap.Table

/-! What the kernel relies on when it asks for memory.

A `Contract` is what an allocator owes its callers: whatever it answers with is null or
the start of a block of whole pages in the heap's range, with room for the size asked
for and apart from every live block. `live h p` is the number of pages of the block
that starts at `p`.

`Taken C r₀ r xs` accounts for a stretch of kernel code between two states of memory:
everything live at `r₀` is live at `r` and holds the bytes it held, memory below the heap
is as it was, and `xs` are blocks acquired in between. It composes (`Taken.trans`) and follows the heap's interface: a
request adds a block (`Taken.kzalloc`), a release takes blocks away (`Taken.freed`), a
block may be forgotten (`Taken.subset`) and written to (`Taken.write`). -/
namespace BasicOS
open Lib Program

abbrev heapBaseAddress : Nat := 0x01000000
abbrev heapMaxHeapSize : Nat := 104857600
abbrev heapMaxHeapBlocksEntries : Nat := 25600

variable {H : Type} {A : Allocator H}

/-- What an allocator owes. -/
structure Contract (A : Allocator H) where
  Valid : H → Prop
  live : H → Nat → Nat
  placed : ∀ {h p}, Valid h → live h p ≠ 0 → p % heapBlockSize = 0 ∧ heapBaseAddress ≤ p ∧
    p + live h p * heapBlockSize ≤ heapBaseAddress + heapMaxHeapSize
  apart : ∀ {h p q}, Valid h → live h p ≠ 0 → live h q ≠ 0 → p ≠ q →
    p + live h p * heapBlockSize ≤ q ∨ q + live h q * heapBlockSize ≤ p
  malloc : ∀ {h size ptr h'}, Valid h → A.kmalloc size h = some (ptr, h') → Valid h' ∧
    ((ptr = 0 ∧ live h' = live h) ∨ (live h ptr = 0 ∧ ∃ n, n ≠ 0 ∧ size ≤ n * heapBlockSize ∧
      live h' = Function.update (live h) ptr n))
  free : ∀ {h p}, Valid h → live h p ≠ 0 →
    Valid (A.kfree p h) ∧ live (A.kfree p h) = Function.update (live h) p 0
  free_null : ∀ {h}, Valid h → Valid (A.kfree 0 h) ∧ live (A.kfree 0 h) = live h

variable (C : Contract A)

/-! ### Live blocks -/

/-- The pages of the block at `p`. -/
abbrev Contract.pages (r : Ram H) (p : Nat) : Nat := C.live r.heap p

/-- The bytes of the block at `p`. -/
def Contract.block (r : Ram H) (p : Nat) : Extent := ⟨p, C.pages r p * heapBlockSize⟩

variable {C} {r r₀ r' : Ram H} {p q : Nat}

theorem Contract.ne_null (h : C.Valid r.heap) (hp : C.pages r p ≠ 0) : p ≠ 0 := by
  have := (C.placed h hp).2.1
  simp only [heapBaseAddress] at this
  omega

/-- Different live blocks share no byte. -/
theorem Contract.blocks_apart (h : C.Valid r.heap) (hp : C.pages r p ≠ 0) (hq : C.pages r q ≠ 0) (hne : p ≠ q) :
    Extent.Apart (C.block r p) (C.block r q) := by
  rcases C.apart h hp hq hne with hle | hle
  · exact Extent.apart_of_le hle
  · exact (Extent.apart_of_le hle).symm

/-- The byte is in use: below the heap, or in a live block. No request is answered with it. -/
def Contract.InUse (C : Contract A) (r : Ram H) (b : Nat) : Prop :=
  b < heapBaseAddress ∨ ∃ p, C.pages r p ≠ 0 ∧ (C.block r p).Holds b

/-! ### Blocks acquired -/

/-- From `r₀` to `r` nothing live was lost or changed, and the blocks `xs` were acquired. -/
structure Taken (C : Contract A) (r₀ r : Ram H) (xs : List Nat) : Prop where
  valid : C.Valid r.heap
  kept : ∀ p, C.pages r₀ p ≠ 0 → C.pages r p = C.pages r₀ p
  same : ∀ p b, C.pages r₀ p ≠ 0 → (C.block r₀ p).Holds b → r.mem b = r₀.mem b
  low : ∀ b, b < heapBaseAddress → r.mem b = r₀.mem b
  nodup : xs.Nodup
  fresh : ∀ x ∈ xs, C.pages r₀ x = 0 ∧ C.pages r x ≠ 0

theorem Taken.refl (h : C.Valid r.heap) : Taken C r r [] :=
  ⟨h, fun _ _ => rfl, fun _ _ _ _ => rfl, fun _ _ => rfl, List.nodup_nil, fun x hx => by cases hx⟩

theorem Taken.block_eq {xs : List Nat} (h : Taken C r₀ r xs) (hp : C.pages r₀ p ≠ 0) : C.block r p = C.block r₀ p := by
  unfold Contract.block
  rw [h.kept p hp]

theorem Taken.live {xs : List Nat} (h : Taken C r₀ r xs) (hp : C.pages r₀ p ≠ 0) : C.pages r p ≠ 0 := by
  rw [h.kept p hp]
  exact hp

theorem Taken.trans {xs ys : List Nat} (h : Taken C r₀ r xs) (h' : Taken C r r' ys) : Taken C r₀ r' (ys ++ xs) := by
  refine ⟨h'.valid, fun p hp => ?_, fun p b hp hb => ?_, fun b hb => ?_, ?_, fun x hx => ?_⟩
  · rw [h'.kept p (h.live hp), h.kept p hp]
  · rw [h'.same p b (h.live hp) (by rwa [h.block_eq hp]), h.same p b hp hb]
  · rw [h'.low b hb, h.low b hb]
  · -- what was acquired later was not live before
    refine List.nodup_append.mpr ⟨h'.nodup, h.nodup, fun y hy x hx heq => ?_⟩
    exact (h.fresh x hx).2 (heq ▸ (h'.fresh y hy).1)
  · rcases List.mem_append.mp hx with hx | hx
    · refine ⟨?_, (h'.fresh x hx).2⟩
      by_contra hlive
      exact h.live hlive (h'.fresh x hx).1
    · exact ⟨(h.fresh x hx).1, h'.live (h.fresh x hx).2⟩

/-- Blocks may be forgotten, and listed in another order. -/
theorem Taken.subset {xs ys : List Nat} (h : Taken C r₀ r xs) (hsub : ∀ y ∈ ys, y ∈ xs) (hnodup : ys.Nodup) :
    Taken C r₀ r ys :=
  ⟨h.valid, h.kept, h.same, h.low, hnodup, fun y hy => h.fresh y (hsub y hy)⟩

theorem Taken.perm {xs ys : List Nat} (h : Taken C r₀ r xs) (hp : xs.Perm ys) : Taken C r₀ r ys :=
  h.subset (fun _ hy => hp.mem_iff.mpr hy) (hp.nodup_iff.mp h.nodup)

theorem Taken.tail {x : Nat} {xs : List Nat} (h : Taken C r₀ r (x :: xs)) : Taken C r₀ r xs :=
  h.subset (fun _ hy => List.mem_cons_of_mem x hy) (List.nodup_cons.mp h.nodup).2

theorem Taken.inUse {xs : List Nat} {b : Nat} (h : Taken C r₀ r xs) (hb : C.InUse r₀ b) : r.mem b = r₀.mem b := by
  rcases hb with hb | ⟨p, hp, hb⟩
  · exact h.low b hb
  · exact h.same p b hp hb

theorem Taken.still_inUse {xs : List Nat} {b : Nat} (h : Taken C r₀ r xs) (hb : C.InUse r₀ b) : C.InUse r b := by
  rcases hb with hb | ⟨p, hp, hb⟩
  · exact .inl hb
  · exact .inr ⟨p, h.live hp, by rwa [h.block_eq hp]⟩

/-- Changes of memory that was not in use. -/
theorem Taken.congr {xs : List Nat} (h : Taken C r₀ r xs) (hvalid : C.Valid r'.heap)
    (hlive : C.live r'.heap = C.live r.heap)
    (hmem : ∀ b, C.InUse r₀ b → r'.mem b = r.mem b) : Taken C r₀ r' xs := by
  have hpages : ∀ p, C.pages r' p = C.pages r p := fun p => congrFun hlive p
  refine ⟨hvalid, fun p hp => (hpages p).trans (h.kept p hp), fun p b hp hb => ?_, fun b hb =>
    ?_, h.nodup, fun x hx => ?_⟩
  · rw [hmem b (.inr ⟨p, hp, hb⟩), h.same p b hp hb]
  · rw [hmem b (.inl hb), h.low b hb]
  · rw [hpages x]
    exact h.fresh x hx

/-- An acquired block has no byte that was in use. -/
theorem Taken.not_inUse {xs : List Nat} {x b : Nat} (h : Taken C r₀ r xs) (hx : x ∈ xs) (hb : (C.block r x).Holds b) :
    ¬ C.InUse r₀ b := by
  obtain ⟨hfresh, hlive⟩ := h.fresh x hx
  rintro (hlow | ⟨p, hp, hpb⟩)
  · have hbase := (C.placed h.valid hlive).2.1
    unfold Contract.block at hb
    rw [Extent.holds_mk] at hb
    omega
  · rw [← h.block_eq hp] at hpb
    exact Contract.blocks_apart h.valid (h.live hp) hlive (fun heq => hp (heq ▸ hfresh)) b hpb hb

/-- Writing inside acquired blocks. -/
theorem Taken.write {xs : List Nat} {m : Memory} (h : Taken C r₀ r xs)
    (hm : ∀ b, m b ≠ r.mem b → ∃ x ∈ xs, (C.block r x).Holds b) : Taken C r₀ {r with mem := m} xs := by
  refine ⟨h.valid, h.kept, fun p b hp hb => ?_, fun b hb => ?_, h.nodup, h.fresh⟩
  · rw [← h.same p b hp hb]
    by_contra hne
    obtain ⟨x, hx, hxb⟩ := hm b hne
    have hpx : p ≠ x := fun heq => hp (heq ▸ (h.fresh x hx).1)
    rw [← h.block_eq hp] at hb
    exact Contract.blocks_apart h.valid (h.live hp) (h.fresh x hx).2 hpx b hb hxb
  · rw [← h.low b hb]
    by_contra hne
    obtain ⟨x, hx, hxb⟩ := hm b hne
    have hbase := (C.placed h.valid (h.fresh x hx).2).2.1
    unfold Contract.block at hxb
    rw [Extent.holds_mk] at hxb
    omega

/-! ### The interface -/

/-- What `kzalloc` answered: null, with nothing changed, or a new block filled with zeros. -/
def Contract.Answer (C : Contract A) (r r' : Ram H) (size ptr : Nat) : Prop :=
  (ptr = 0 ∧ r'.mem = r.mem ∧ C.live r'.heap = C.live r.heap) ∨
  (ptr ≠ 0 ∧ C.pages r ptr = 0 ∧ r'.mem = fill r.mem ptr size 0 ∧ ∃ n, n ≠ 0 ∧ size ≤ n * heapBlockSize ∧
    C.live r'.heap = Function.update (C.live r.heap) ptr n)

/-- What `kmalloc` answered; it stops where the allocator does not answer. -/
theorem wp_kmalloc (h : C.Valid r.heap) (size : Nat) :
    wp (kmalloc A size) (fun ptr r' => C.Valid r'.heap ∧ r'.mem = r.mem ∧ A.kmalloc size r.heap = some (ptr, r'.heap) ∧
      ((ptr = 0 ∧ C.live r'.heap = C.live r.heap) ∨ (ptr ≠ 0 ∧ C.pages r ptr = 0 ∧ ∃ n, n ≠ 0 ∧
        size ≤ n * heapBlockSize ∧ C.live r'.heap = Function.update (C.live r.heap) ptr n)))
      (fun _ => A.kmalloc size r.heap = none) r := by
  unfold wp kmalloc
  cases hk : A.kmalloc size r.heap with
  | none => rfl
  | some a =>
    obtain ⟨ptr, heap⟩ := a
    obtain ⟨hvalid, hnull | ⟨hfree, n, hn, hroom, hlive⟩⟩ := C.malloc h hk
    · exact ⟨hvalid, rfl, rfl, .inl hnull⟩
    · refine ⟨hvalid, rfl, rfl, .inr ⟨?_, hfree, n, hn, hroom, hlive⟩⟩
      refine Contract.ne_null (r := ⟨heap, r.mem⟩) (C := C) hvalid ?_
      show C.live heap ptr ≠ 0
      rw [hlive, Function.update_self]
      exact hn

theorem wp_kzalloc (h : C.Valid r.heap) (size : Nat) :
    wp (kzalloc A size) (fun ptr r' => C.Valid r'.heap ∧ C.Answer r r' size ptr ∧
      A.kmalloc size r.heap = some (ptr, r'.heap)) (fun _ => A.kmalloc size r.heap = none) r := by
  unfold kzalloc
  refine wp.bind (wp_kmalloc h size) fun ptr r' hmalloc => ?_
  obtain ⟨hvalid, hmem, hanswer, ⟨rfl, hlive⟩ | ⟨hne, hfree, hnew⟩⟩ := hmalloc
  · exact ⟨hvalid, .inl ⟨rfl, hmem, hlive⟩, hanswer⟩
  · rw [if_neg hne]
    exact ⟨hvalid, .inr ⟨hne, hfree, by rw [← hmem], hnew⟩, hanswer⟩

theorem kzalloc_spec (h : C.Valid r.heap) (size : Nat) :
    Ensures (kzalloc A size) (fun ptr r' => C.Valid r'.heap ∧ C.Answer r r' size ptr) r :=
  wp.mono (wp_kzalloc h size) (fun _ _ hans => ⟨hans.1, hans.2.1⟩) fun _ _ => trivial

/-- The state after an answer, as blocks acquired. -/
theorem Contract.Answer.taken {size ptr : Nat} (h : C.Answer r r' size ptr)
    (hvalid' : C.Valid r'.heap) : Taken C r r' (if ptr = 0 then [] else [ptr]) := by
  rcases h with ⟨rfl, hmem, hlive⟩ | ⟨hne, hfree, hmem, n, hn, hroom, hlive⟩
  · rw [if_pos rfl]
    refine ⟨hvalid', fun p _ => ?_, fun p b _ _ => by rw [hmem], fun b _ => by rw [hmem], List.nodup_nil,
      fun x hx => by cases hx⟩
    show C.live r'.heap p = _
    rw [hlive]
  · rw [if_neg hne]
    have hother : ∀ p, C.pages r p ≠ 0 → p ≠ ptr := fun p hp heq => hp (heq ▸ hfree)
    have hself : C.pages r' ptr = n := by
      show C.live r'.heap ptr = n
      rw [hlive, Function.update_self]
    have hkept : ∀ p, C.pages r p ≠ 0 → C.pages r' p = C.pages r p := fun p hp => by
      show C.live r'.heap p = _
      rw [hlive, Function.update_of_ne (hother p hp)]
    refine ⟨hvalid', hkept, fun p b hp hb => ?_, fun b hb => ?_, List.nodup_cons.mpr ⟨List.not_mem_nil, List.nodup_nil⟩,
      fun x hx => ?_⟩
    · rw [hmem]
      refine sameOutside_fill _ _ _ _ b fun hheld => ?_
      have hb' : (C.block r' p).Holds b := by
        unfold Contract.block
        rwa [hkept p hp]
      refine Contract.blocks_apart hvalid' (p := p) (q := ptr) (by rwa [hkept p hp]) (by rwa [hself])
        (hother p hp) b hb' ?_
      unfold Contract.block Extent.Holds at *
      rw [hself]
      simp only at hheld ⊢
      omega
    · have hbase := (C.placed hvalid' (show C.pages r' ptr ≠ 0 by rwa [hself])).2.1
      rw [hmem]
      refine sameOutside_fill _ _ _ _ b fun hheld => ?_
      rw [Extent.holds_mk] at hheld
      omega
    · rw [List.mem_singleton.mp hx]
      exact ⟨hfree, by rwa [hself]⟩

theorem Contract.Answer.room {size ptr : Nat} (h : C.Answer r r' size ptr) (hne : ptr ≠ 0) :
    size ≤ C.pages r' ptr * heapBlockSize := by
  rcases h with ⟨rfl, _⟩ | ⟨_, _, _, n, _, hroom, hlive⟩
  · exact absurd rfl hne
  · show size ≤ C.live r'.heap ptr * heapBlockSize
    rw [hlive, Function.update_self]
    exact hroom

/-- Requests of that size are answered while these blocks are live. -/
def Contract.Answers (C : Contract A) (heap : H) (size : Nat) : Prop :=
  ∀ h, C.Valid h → C.live h = C.live heap → A.kmalloc size h ≠ none

/-- A request adds its block. -/
theorem Taken.kzalloc {xs : List Nat} (h : Taken C r₀ r xs) (size : Nat) :
    Ensures (kzalloc A size) (fun ptr r' => (ptr = 0 ∧ Taken C r₀ r' xs) ∨
      (ptr ≠ 0 ∧ Taken C r₀ r' (ptr :: xs) ∧ size ≤ C.pages r' ptr * heapBlockSize ∧
        r'.mem = fill r.mem ptr size 0)) r := by
  refine (kzalloc_spec h.valid size).mono fun ptr r' => ?_
  rintro ⟨hvalid, hans⟩
  have htaken := h.trans (hans.taken hvalid)
  by_cases hptr : ptr = 0
  · rw [if_pos hptr] at htaken
    exact .inl ⟨hptr, htaken⟩
  · rw [if_neg hptr] at htaken
    refine .inr ⟨hptr, htaken, hans.room hptr, ?_⟩
    rcases hans with ⟨rfl, _⟩ | ⟨_, _, hmem, _⟩
    · exact absurd rfl hptr
    · exact hmem

/-! ### Releases -/

/-- The blocks `xs` were released, and nothing else changed. -/
structure Freed (C : Contract A) (r r' : Ram H) (xs : List Nat) : Prop where
  valid : C.Valid r'.heap
  mem : r'.mem = r.mem
  gone : ∀ p, p ∈ xs → C.pages r' p = 0
  kept : ∀ p, p ∉ xs → C.pages r' p = C.pages r p

theorem Freed.refl (h : C.Valid r.heap) : Freed C r r [] :=
  ⟨h, rfl, fun _ hp => (List.not_mem_nil hp).elim, fun _ _ => rfl⟩

theorem Freed.trans {r'' : Ram H} {xs ys : List Nat} (h : Freed C r r' xs) (h' : Freed C r' r'' ys) :
    Freed C r r'' (xs ++ ys) := by
  refine ⟨h'.valid, h'.mem.trans h.mem, fun p hp => ?_, fun p hp => ?_⟩
  · by_cases hpy : p ∈ ys
    · exact h'.gone p hpy
    · rw [h'.kept p hpy]
      exact h.gone p ((List.mem_append.mp hp).resolve_right hpy)
  · obtain ⟨hpx, hpy⟩ := not_or.mp (mt List.mem_append.mpr hp)
    rw [h'.kept p hpy, h.kept p hpx]

theorem Freed.perm {xs ys : List Nat} (h : Freed C r r' xs) (hp : xs.Perm ys) : Freed C r r' ys :=
  ⟨h.valid, h.mem, fun p hy => h.gone p (hp.mem_iff.mpr hy), fun p hy => h.kept p fun hx => hy (hp.mem_iff.mp hx)⟩

/-- The state after `kfree`. -/
def released (A : Allocator H) (p : Nat) (r : Ram H) : Ram H := {r with heap := A.kfree p r.heap}

theorem freed_kfree (h : C.Valid r.heap) (hp : C.pages r p ≠ 0) : Freed C r (released A p r) [p] := by
  obtain ⟨hvalid, hlive⟩ := C.free h hp
  refine ⟨hvalid, rfl, fun q hq => ?_, fun q hq => ?_⟩
  · show C.live (A.kfree p r.heap) q = 0
    rw [hlive, List.mem_singleton.mp hq, Function.update_self]
  · show C.live (A.kfree p r.heap) q = _
    rw [hlive, Function.update_of_ne (by simpa using hq)]

/-- Releasing null does nothing. -/
theorem freed_kfree_null (h : C.Valid r.heap) : Freed C r (released A 0 r) [] := by
  obtain ⟨hvalid, hlive⟩ := C.free_null h
  refine ⟨hvalid, rfl, fun _ hq => (List.not_mem_nil hq).elim, fun q _ => ?_⟩
  show C.live (A.kfree 0 r.heap) q = _
  rw [hlive]

/-- A release takes its blocks away. -/
theorem Taken.freed {xs ys : List Nat} (h : Taken C r₀ r (xs ++ ys)) (hf : Freed C r r' xs) : Taken C r₀ r' ys := by
  obtain ⟨_, hnodup, hdisjoint⟩ := List.nodup_append.mp h.nodup
  have hold : ∀ p, C.pages r₀ p ≠ 0 → p ∉ xs := fun p hp hpx =>
    hp (h.fresh p (List.mem_append_left ys hpx)).1
  refine ⟨hf.valid, fun p hp => ?_, fun p b hp hb => ?_, fun b hb => ?_, hnodup, fun y hy => ?_⟩
  · rw [hf.kept p (hold p hp), h.kept p hp]
  · rw [hf.mem, h.same p b hp hb]
  · rw [hf.mem, h.low b hb]
  · obtain ⟨hy₀, hlive⟩ := h.fresh y (List.mem_append_right xs hy)
    refine ⟨hy₀, ?_⟩
    rw [hf.kept y fun hyx => hdisjoint y hyx y hy rfl]
    exact hlive

theorem Taken.kfree {x : Nat} {xs : List Nat} (h : Taken C r₀ r (x :: xs)) : Taken C r₀ (released A x r) xs :=
  @Taken.freed H A C r r₀ _ [x] xs h (freed_kfree h.valid (h.fresh x (List.mem_cons_self ..)).2)

/-! ### Pointers that may be null -/

/-- The block a pointer that may be null stands for. -/
def nonNull (p : Nat) : List Nat := if p = 0 then [] else [p]

theorem nonNull_ne {p : Nat} (h : p ≠ 0) : nonNull p = [p] := if_neg h

/-- A pointer is released, and its block if it is not null. -/
theorem freed_nonNull (h : C.Valid r.heap) (hlive : ∀ q ∈ nonNull p, C.pages r q ≠ 0) :
    Freed C r (released A p r) (nonNull p) := by
  by_cases hp : p = 0
  · subst hp
    exact freed_kfree_null h
  · rw [nonNull_ne hp] at hlive ⊢
    exact freed_kfree h (hlive p (List.mem_singleton_self p))

theorem Taken.kzalloc_nonNull {xs : List Nat} (h : Taken C r₀ r xs) (size : Nat) :
    Ensures (BasicOS.kzalloc A size) (fun ptr r' => Taken C r₀ r' (nonNull ptr ++ xs) ∧
      (ptr ≠ 0 → size ≤ C.pages r' ptr * heapBlockSize ∧ r'.mem = fill r.mem ptr size 0)) r := by
  refine (h.kzalloc size).mono fun ptr r' => ?_
  rintro (⟨rfl, htaken⟩ | ⟨hne, htaken, hroom, hmem⟩)
  · exact ⟨htaken, fun hne => absurd rfl hne⟩
  · rw [nonNull_ne hne]
    exact ⟨htaken, fun _ => ⟨hroom, hmem⟩⟩

theorem Taken.kfree_nonNull {xs : List Nat} (h : Taken C r₀ r (nonNull p ++ xs)) :
    Taken C r₀ (released A p r) xs :=
  h.freed (freed_nonNull h.valid fun q hq => (h.fresh q (List.mem_append_left xs hq)).2)

/-- A pointer's block may be forgotten. -/
theorem Taken.drop {xs ys : List Nat} (h : Taken C r₀ r (xs ++ ys)) : Taken C r₀ r ys :=
  h.subset (fun _ hy => List.mem_append_right xs hy) (List.nodup_append.mp h.nodup).2.1

/-! ### Requests refused -/

/-- The allocator that refuses with null what it does not answer. -/
def Allocator.orNull (A : Allocator H) : Allocator H where
  kmalloc size h := some ((A.kmalloc size h).getD (0, h))
  kfree := A.kfree

/-- It owes what the allocator owes. -/
def Contract.orNull (C : Contract A) : Contract A.orNull where
  Valid := C.Valid
  live := C.live
  placed := C.placed
  apart := C.apart
  malloc := by
    intro h size ptr h' hvalid hk
    replace hk : (A.kmalloc size h).getD (0, h) = (ptr, h') := Option.some_inj.mp hk
    cases hanswer : A.kmalloc size h with
    | none =>
      rw [hanswer] at hk
      cases hk
      exact ⟨hvalid, .inl ⟨rfl, rfl⟩⟩
    | some answer =>
      rw [hanswer] at hk
      exact C.malloc hvalid (hanswer.trans (congrArg some hk))
  free := C.free
  free_null := C.free_null

theorem Contract.orNull_answers (C : Contract A) (h : H) (size : Nat) : C.orNull.Answers h size :=
  fun _ _ _ => Option.some_ne_none _

end BasicOS

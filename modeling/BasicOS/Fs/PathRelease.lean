import BasicOS.Fs.Components
import BasicOS.Paging.Release

/-! A parsed path leaves nothing behind in the heap, once it is released.

`pparser_parse` takes a block for the root and two for every component, and one more that it
gives back when a component is empty. `pparser_free` follows the list while it releases it; it
reads the link of a part before the part is gone. Here every block of the path has what the
parser stored in it until its release, and what is released is not read or released again: in
every state of the heap with room for the path, the table is as before, and each block was
released once (`pparserFree_restores`). -/
namespace BasicOS
open Lib Program

/-! ### The blocks of a path -/

/-- What the parser stored in a block. -/
inductive PathBlock where
  | root (driveNumber : Int) (first : Nat)
  | part (part next : Nat)
  | chars (name : List UInt8)
deriving DecidableEq, Repr

abbrev PathBlocks := Nat → Option PathBlock

/-- The address of the first of the parts, null if there is none. -/
def firstPart : List PathPart → Nat
  | [] => 0
  | p :: _ => p.addr

/-- Every part with its characters and the link to the next. -/
def storeParts (blocks : PathBlocks) : List PathPart → PathBlocks
  | [] => blocks
  | p :: rest =>
    Function.update (Function.update (storeParts blocks rest) p.part (some (.chars p.name))) p.addr
      (some (.part p.part (firstPart rest)))

def PathRoot.store (root : PathRoot) : PathBlocks :=
  Function.update (storeParts (fun _ => none) root.parts) root.addr
    (some (.root root.driveNumber (firstPart root.parts)))

/-- Memory, what is in the blocks that are not released, and the releases so far. -/
structure PathHeap (H : Type) where
  ram : Ram H
  blocks : PathBlocks
  freed : List Nat

variable {H : Type}

/-- `kfree` of a block of the path. -/
def freeBlock (A : Allocator H) (addr : Nat) : Program Stop (PathHeap H) Unit := do
  match (← get).blocks addr with
  | none => stop .fault
  | some _ => modify fun s => ⟨{s.ram with heap := A.kfree addr s.ram.heap}, Function.update s.blocks addr none,
      s.freed ++ [addr]⟩

/-- `part->part` and `part->next`. -/
def loadPart (addr : Nat) : Program Stop (PathHeap H) (Nat × Nat) := do
  match (← get).blocks addr with
  | some (.part part next) => return (part, next)
  | _ => stop .fault

/-- `root->first`. -/
def loadFirst (addr : Nat) : Program Stop (PathHeap H) Nat := do
  match (← get).blocks addr with
  | some (.root _ first) => return first
  | _ => stop .fault

/-- The loop of `pparser_free` with the turns left. -/
def pparserFreeFrom (A : Allocator H) : Nat → Nat → Program Stop (PathHeap H) Unit
  | 0, part => when (part ≠ 0) (stop .diverges)
  | turns + 1, part => do
    if part = 0 then return ()
    else
      let (str, nPart) ← loadPart part
      freeBlock A str
      freeBlock A part
      pparserFreeFrom A turns nPart

def pparserFree (A : Allocator H) (turns root : Nat) : Program Stop (PathHeap H) Unit := do
  let first ← loadFirst root
  pparserFreeFrom A turns first
  freeBlock A root

/-! ### Releasing a list -/

/-- The blocks of the parts, in the order of their release. -/
def partAddresses (parts : List PathPart) : List Nat := parts.flatMap fun p => [p.part, p.addr]

def PathRoot.addresses (root : PathRoot) : List Nat := partAddresses root.parts ++ [root.addr]

theorem partAddresses_cons (p : PathPart) (rest : List PathPart) :
    partAddresses (p :: rest) = p.part :: p.addr :: partAddresses rest := rfl

/-- The blocks without those at some addresses. -/
def PathBlocks.without (blocks : PathBlocks) (addrs : List Nat) : PathBlocks :=
  fun addr => if addr ∈ addrs then none else blocks addr

theorem PathBlocks.without_cons (blocks : PathBlocks) (addr : Nat) (rest : List Nat) :
    PathBlocks.without (Function.update blocks addr none) rest = blocks.without (addr :: rest) := by
  funext other
  unfold PathBlocks.without
  by_cases hrest : other ∈ rest
  · rw [if_pos hrest, if_pos (List.mem_cons_of_mem addr hrest)]
  · rw [if_neg hrest]
    by_cases heq : other = addr
    · rw [heq, Function.update_self, if_pos (List.mem_cons_self ..)]
    · rw [Function.update_of_ne heq, if_neg (fun hmem => (List.mem_cons.mp hmem).elim heq hrest)]

/-- The parts are linked in the blocks as the parser left them. -/
def Chained (blocks : PathBlocks) : List PathPart → Prop
  | [] => True
  | p :: rest => blocks p.addr = some (.part p.part (firstPart rest)) ∧ blocks p.part = some (.chars p.name) ∧
      Chained blocks rest

theorem Chained.congr {blocks blocks' : PathBlocks} {parts : List PathPart} (h : Chained blocks parts)
    (hsame : ∀ addr ∈ partAddresses parts, blocks' addr = blocks addr) : Chained blocks' parts := by
  induction parts with
  | nil => trivial
  | cons p rest ih =>
    rw [partAddresses_cons] at hsame
    obtain ⟨hpart, hchars, hrest⟩ := h
    refine ⟨?_, ?_, ih hrest fun addr haddr => hsame addr (by simp [haddr])⟩
    · rw [hsame p.addr (by simp), hpart]
    · rw [hsame p.part (by simp), hchars]

theorem storeParts_chained (blocks : PathBlocks) {parts : List PathPart} (hnodup : (partAddresses parts).Nodup) :
    Chained (storeParts blocks parts) parts := by
  induction parts with
  | nil => trivial
  | cons p rest ih =>
    rw [partAddresses_cons, List.nodup_cons, List.nodup_cons] at hnodup
    obtain ⟨hpart, haddr, hrest⟩ := hnodup
    have hne : p.part ≠ p.addr := fun heq => hpart (heq ▸ List.mem_cons_self ..)
    refine ⟨Function.update_self .., ?_, (ih hrest).congr fun addr hmem => ?_⟩
    · unfold storeParts
      rw [Function.update_of_ne hne, Function.update_self]
    · rw [storeParts, Function.update_of_ne (show addr ≠ p.addr from fun heq => haddr (heq ▸ hmem)),
        Function.update_of_ne (show addr ≠ p.part from fun heq => hpart (heq ▸ List.mem_cons_of_mem _ hmem))]

theorem storeParts_outside {blocks : PathBlocks} {parts : List PathPart} {addr : Nat} (h : addr ∉ partAddresses parts) :
    storeParts blocks parts addr = blocks addr := by
  induction parts with
  | nil => rfl
  | cons p rest ih =>
    rw [partAddresses_cons, List.mem_cons, List.mem_cons, not_or, not_or] at h
    obtain ⟨hpart, haddr, hrest⟩ := h
    unfold storeParts
    rw [Function.update_of_ne haddr, Function.update_of_ne hpart, ih hrest]

theorem storeParts_inside {blocks : PathBlocks} {parts : List PathPart} {addr : Nat}
    (hnodup : (partAddresses parts).Nodup) (h : addr ∈ partAddresses parts) : storeParts blocks parts addr ≠ none := by
  have hchained := storeParts_chained blocks hnodup
  generalize storeParts blocks parts = stored at hchained
  clear hnodup
  induction parts with
  | nil => exact absurd h List.not_mem_nil
  | cons p rest ih =>
    obtain ⟨hpart, hchars, hrest⟩ := hchained
    rw [partAddresses_cons, List.mem_cons, List.mem_cons] at h
    rcases h with rfl | rfl | h
    · rw [hchars]
      exact Option.some_ne_none _
    · rw [hpart]
      exact Option.some_ne_none _
    · exact ih h hrest

variable {A : Allocator H} {s : PathHeap H} {addr : Nat} {block : PathBlock}

theorem freeBlock_eq (h : s.blocks addr = some block) : freeBlock A addr s =
    .ok ((), ⟨⟨A.kfree addr s.ram.heap, s.ram.mem⟩, Function.update s.blocks addr none, s.freed ++ [addr]⟩) := by
  unfold freeBlock
  rw [bind_apply, get_apply]
  simp only [h]
  rfl

theorem loadPart_eq {part next : Nat} (h : s.blocks addr = some (.part part next)) :
    loadPart addr s = .ok ((part, next), s) := by
  unfold loadPart
  rw [bind_apply, get_apply]
  simp only [h]
  rfl

theorem loadFirst_eq {drive : Int} {first : Nat} (h : s.blocks addr = some (.root drive first)) :
    loadFirst addr s = .ok (first, s) := by
  unfold loadFirst
  rw [bind_apply, get_apply]
  simp only [h]
  rfl

/-- The loop follows the list to its end, and releases every block of it once. -/
theorem pparserFreeFrom_eq {parts : List PathPart} (hchained : Chained s.blocks parts)
    (hnodup : (partAddresses parts).Nodup) (hnull : ∀ p ∈ parts, p.addr ≠ 0) {turns : Nat}
    (hturns : parts.length ≤ turns) : pparserFreeFrom A turns (firstPart parts) s =
      .ok ((), ⟨⟨(partAddresses parts).foldl (fun heap p => A.kfree p heap) s.ram.heap, s.ram.mem⟩,
        s.blocks.without (partAddresses parts), s.freed ++ partAddresses parts⟩) := by
  induction parts generalizing s turns with
  | nil =>
    have hnone : s.blocks.without [] = s.blocks := funext fun addr => if_neg List.not_mem_nil
    have hstay : s = ⟨⟨s.ram.heap, s.ram.mem⟩, s.blocks.without [], s.freed ++ []⟩ := by
      rw [hnone, List.append_nil]
    cases turns with
    | zero =>
      show (.ok ((), s) : Except Stop (Unit × PathHeap H)) = _
      exact congrArg (fun t => Except.ok ((), t)) hstay
    | succ turns =>
      show (.ok ((), s) : Except Stop (Unit × PathHeap H)) = _
      exact congrArg (fun t => Except.ok ((), t)) hstay
  | cons p rest ih =>
    obtain ⟨turns, rfl⟩ : ∃ n, turns = n + 1 := ⟨turns - 1, by rw [List.length_cons] at hturns; omega⟩
    obtain ⟨hpart, hchars, hrest⟩ := hchained
    rw [partAddresses_cons, List.nodup_cons, List.nodup_cons] at hnodup
    obtain ⟨hstr, haddr, hnodup⟩ := hnodup
    have hne : p.addr ≠ p.part := fun heq => hstr (heq ▸ List.mem_cons_self ..)
    -- the link is read before either block is released
    show pparserFreeFrom A (turns + 1) p.addr s = _
    unfold pparserFreeFrom
    rw [if_neg (hnull p (List.mem_cons_self ..)), bind_apply, loadPart_eq hpart]
    simp only
    rw [bind_apply, freeBlock_eq hchars]
    simp only
    have hkept : Function.update s.blocks p.part none p.addr = some (.part p.part (firstPart rest)) := by
      rw [Function.update_of_ne hne, hpart]
    rw [bind_apply, freeBlock_eq hkept]
    simp only
    rw [ih (hrest.congr fun addr hmem => ?_) hnodup (fun q hq => hnull q (List.mem_cons_of_mem _ hq))
      (by rw [List.length_cons] at hturns; omega)]
    · rw [partAddresses_cons]
      simp only [PathBlocks.without_cons, List.foldl_cons, List.append_assoc, List.cons_append, List.nil_append]
    · show Function.update (Function.update s.blocks p.part none) p.addr none addr = _
      rw [Function.update_of_ne (show addr ≠ p.addr from fun heq => haddr (heq ▸ hmem)),
        Function.update_of_ne (show addr ≠ p.part from fun heq => hstr (heq ▸ List.mem_cons_of_mem _ hmem))]

/-- The blocks of a path are those with something in them. -/
theorem mem_addresses_iff {root : PathRoot} (hnodup : root.addresses.Nodup) (addr : Nat) :
    addr ∈ root.addresses ↔ root.store addr ≠ none := by
  unfold PathRoot.addresses at hnodup ⊢
  obtain ⟨hparts, _, _⟩ := List.nodup_append.mp hnodup
  unfold PathRoot.store
  rw [List.mem_append, List.mem_singleton]
  by_cases heq : addr = root.addr
  · rw [heq, Function.update_self]
    exact iff_of_true (.inr rfl) (Option.some_ne_none _)
  · rw [Function.update_of_ne heq, or_iff_left heq]
    constructor
    · exact storeParts_inside hparts
    · intro hsome
      by_contra hout
      exact hsome (storeParts_outside hout)

/-- **The release of a path** whose blocks are apart gives back each of them once, and reads none that is gone. -/
theorem pparserFree_eq {root : PathRoot} (hnodup : root.addresses.Nodup) (hnull : ∀ p ∈ root.parts, p.addr ≠ 0)
    {turns : Nat} (hturns : root.parts.length ≤ turns) (ram : Ram H) :
    pparserFree A turns root.addr ⟨ram, root.store, []⟩ =
      .ok ((), ⟨⟨root.addresses.foldl (fun heap p => A.kfree p heap) ram.heap, ram.mem⟩, fun _ => none,
        root.addresses⟩) := by
  have hnodup' := hnodup
  unfold PathRoot.addresses at hnodup'
  rw [List.nodup_append] at hnodup'
  obtain ⟨hparts, _, hroot⟩ := hnodup'
  have hout : ∀ addr ∈ partAddresses root.parts, root.store addr = storeParts (fun _ => none) root.parts addr := by
    intro addr hmem
    exact Function.update_of_ne (hroot addr hmem root.addr (List.mem_singleton_self _)) _ _
  have hfirst : root.store root.addr = some (.root root.driveNumber (firstPart root.parts)) := Function.update_self ..
  have hkept : root.store.without (partAddresses root.parts) root.addr =
      some (.root root.driveNumber (firstPart root.parts)) := by
    unfold PathBlocks.without
    rw [if_neg (fun hmem => hroot _ hmem _ (List.mem_singleton_self _) rfl), hfirst]
  unfold pparserFree
  rw [bind_apply, loadFirst_eq hfirst]
  simp only
  rw [bind_apply, pparserFreeFrom_eq ((storeParts_chained _ hparts).congr hout) hparts hnull hturns]
  simp only
  rw [freeBlock_eq hkept]
  have hgone : Function.update (root.store.without (partAddresses root.parts)) root.addr none = fun _ => none := by
    funext addr
    by_cases heq : addr = root.addr
    · rw [heq, Function.update_self]
    · rw [Function.update_of_ne heq]
      unfold PathBlocks.without
      split
      · rfl
      · rename_i hmem
        unfold PathRoot.store
        rw [Function.update_of_ne heq, storeParts_outside hmem]
  simp only [PathRoot.addresses, List.foldl_append, List.foldl_cons, List.foldl_nil, List.nil_append, hgone]

/-! ### Parsing where there is room -/

section Room

variable {heap₀ : Heap} {r : Ram HeapState} {xs : List Nat}

/-- A block is had while one is free. -/
theorem TakenFrom.kzalloc (h : TakenFrom heap₀ r.heap.heap xs) (hclean : heap₀.table.Clean) (hplaced : heap₀.Placed)
    (hroom : xs.length < heap₀.table.freeBlocks.card) {size : Nat} (hsize : blocksOf size = 1) :
    wp (kzalloc kheap size) (fun p r' => ∃ b, p = heapBlockToAddress heap₀ b ∧ p ≠ 0 ∧
      TakenFrom heap₀ r'.heap.heap (b :: xs)) (fun _ => False) r := by
  obtain ⟨b, hptr, htaken⟩ := h.alloc hclean hplaced.total_lt hroom hsize
  have hne : heapBlockToAddress heap₀ b ≠ 0 :=
    heapBlockToAddress_ne_zero hplaced (htaken.free b (List.mem_cons_self ..)).1
  have hrun : kmalloc kheap size r = .ok (heapBlockToAddress heap₀ b, ⟨r.heap.step (.alloc size), r.mem⟩) := by
    rw [← hptr]
    rfl
  unfold BasicOS.kzalloc
  rw [wp_bind, wp_ok hrun, if_neg hne]
  exact ⟨b, rfl, hne, htaken⟩

/-- And given back. -/
theorem TakenFrom.kfree {b : Nat} (h : TakenFrom heap₀ r.heap.heap (b :: xs)) (hplaced : heap₀.Placed) :
    wp (kfree kheap (heapBlockToAddress heap₀ b)) (fun _ r' => TakenFrom heap₀ r'.heap.heap xs) (fun _ => False) r := by
  have hreleased := h.release hplaced (List.mem_cons_self ..)
  rw [List.erase_cons_head] at hreleased
  exact hreleased

/-- The blocks of a path: one for the root, two for each part, and the one that is given back. -/
def pathRoom (path : List UInt8) : Nat := 2 * (leadingParts (path.drop 3)).length + 2

theorem pparserParts_taken (h : TakenFrom heap₀ r.heap.heap xs) (hclean : heap₀.table.Clean) (hplaced : heap₀.Placed)
    (path : List UInt8) (hroom : xs.length + 2 * (leadingParts path).length + 1 ≤ heap₀.table.freeBlocks.card) :
    wp (pparserParts kheap path) (fun parts r' => (∀ p ∈ parts, p.addr ≠ 0) ∧
      parts.length = (leadingParts path).length ∧ ∃ ys, TakenFrom heap₀ r'.heap.heap (ys ++ xs) ∧
        (partAddresses parts).Perm (ys.map (heapBlockToAddress heap₀))) (fun _ => False) r := by
  -- the rest of the path is shorter
  induction hlen : path.length using Nat.strong_induction_on generalizing path r xs with
  | h n ih =>
    rw [leadingParts_eq] at hroom ⊢
    rw [pparserParts]
    by_cases hname : (nextPart path).1 = []
    · simp only [if_pos hname, dif_pos hname] at hroom ⊢
      unfold pparserGetPathPart
      rw [wp_bind, wp_bind]
      refine (h.kzalloc hclean hplaced (by omega) (by decide)).mono (fun str r₁ hstr => ?_) fun _ hstop => hstop
      obtain ⟨b, rfl, _, h₁⟩ := hstr
      rw [if_pos hname, wp_bind]
      refine (h₁.kfree hplaced).mono (fun _ r₂ h₂ => ?_) fun _ hstop => hstop
      exact ⟨fun p hp => absurd hp List.not_mem_nil, rfl, [], h₂, List.Perm.refl _⟩
    · simp only [if_neg hname, dif_neg hname, List.length_cons] at hroom ⊢
      unfold pparserGetPathPart
      rw [wp_bind, wp_bind]
      refine (h.kzalloc hclean hplaced (by omega) (by decide)).mono (fun str r₁ hstr => ?_) fun _ hstop => hstop
      obtain ⟨b, rfl, hne, h₁⟩ := hstr
      rw [if_neg hname, when_false hne, wp_bind]
      show wp (BasicOS.kzalloc kheap sizeofPathPart >>= _) _ _ r₁
      refine wp.bind (h₁.kzalloc hclean hplaced (by rw [List.length_cons]; omega) (by decide)) fun part r₂ hpart => ?_
      obtain ⟨c, rfl, hne', h₂⟩ := hpart
      rw [when_false hne', pure_bind]
      refine wp.bind (ih _ (hlen ▸ nextPart_length hname) h₂ _
        (by rw [List.length_cons, List.length_cons]; omega) rfl) fun parts r₃ hparts => ?_
      obtain ⟨hnull, hcount, ys, h₃, hperm⟩ := hparts
      refine ⟨fun p hp => ?_, by rw [List.length_cons, hcount], ys ++ [c, b], ?_, ?_⟩
      · rcases List.mem_cons.mp hp with rfl | hp
        · exact hne'
        · exact hnull p hp
      · rw [List.append_assoc]
        exact h₃
      · rw [partAddresses_cons, List.map_append]
        have hfirst : (heapBlockToAddress heap₀ b :: heapBlockToAddress heap₀ c :: partAddresses parts).Perm
            ([c, b].map (heapBlockToAddress heap₀) ++ ys.map (heapBlockToAddress heap₀)) :=
          (List.Perm.swap ..).trans ((hperm.cons _).cons _)
        exact hfirst.trans List.perm_append_comm

/-- **Parsing a well-formed path where there is room** returns it in blocks of its own. -/
theorem pparserParse_taken {path : List UInt8} (hwell : PathWellFormed path) (hclean : r.heap.heap.table.Clean)
    (hplaced : r.heap.heap.Placed) (hroom : pathRoom path ≤ r.heap.heap.table.freeBlocks.card) :
    wp (pparserParse kheap path) (fun out r' => ∃ root, out = some root ∧ (∀ p ∈ root.parts, p.addr ≠ 0) ∧
      root.parts.length = (leadingParts (path.drop 3)).length ∧ ∃ ys, TakenFrom r.heap.heap r'.heap.heap ys ∧
        root.addresses.Perm (ys.map (heapBlockToAddress r.heap.heap))) (fun _ => False) r := by
  obtain ⟨hlen, hdrive⟩ := pathAccepted_iff.mpr hwell
  unfold pathRoom at hroom
  unfold pparserParse pparserCreateRoot
  rw [if_neg (Nat.not_lt.mpr hlen)]
  simp only [if_neg (Int.not_lt.mpr hdrive)]
  rw [wp_bind, wp_bind]
  refine ((TakenFrom.refl _).kzalloc hclean hplaced (by rw [List.length_nil]; omega) (by decide)).mono
    (fun addr r₁ haddr => ?_) fun _ hstop => hstop
  obtain ⟨b, rfl, hne, h₁⟩ := haddr
  rw [when_false hne, pure_bind, wp_pure]
  refine wp.bind (pparserParts_taken h₁ hclean hplaced (path.drop 3)
    (by rw [List.length_cons, List.length_nil]; omega)) fun parts r₂ hparts => ?_
  obtain ⟨hnull, hcount, ys, h₂, hperm⟩ := hparts
  refine ⟨_, rfl, hnull, hcount, ys ++ [b], h₂, ?_⟩
  unfold PathRoot.addresses
  rw [List.map_append]
  exact hperm.append_right _

end Room

/-! ### Parsed and released -/

variable {entries : Int → Nat} {t : HeapState}

/-- **A path parsed and released leaves the heap as it was**: in every state of the heap with room
for it, parsing returns; if it returns null nothing has changed, and else the release gives
back every block of the path once, follows no part that is gone, and the table is as before. -/
theorem pparserFree_restores (hrun : HeapReached (kheapInit entries).heap t) (path : List UInt8)
    (hroom : PathWellFormed path → pathRoom path ≤ t.heap.table.freeBlocks.card) (mem : Memory) :
    ∃ out r, pparserParse kheap path ⟨t, mem⟩ = .ok (out, r) ∧ (out.isSome = true ↔ PathWellFormed path) ∧
      (out = none → r = ⟨t, mem⟩) ∧
      ∀ root, out = some root → ∀ turns, root.parts.length ≤ turns →
        ∃ u, pparserFree kheap turns root.addr ⟨r, root.store, []⟩ = .ok ((), u) ∧
          u.ram.heap.heap.table.entries = t.heap.table.entries ∧
          u.freed.Nodup ∧ (∀ addr, addr ∈ u.freed ↔ root.store addr ≠ none) ∧ ∀ addr, u.blocks addr = none := by
  by_cases hwell : PathWellFormed path
  · obtain ⟨hclean, hplaced, _⟩ := kheapInit_reached hrun
    obtain ⟨out, r, hparse, root, rfl, hnull, _, ys, htaken, hperm⟩ :=
      (pparserParse_taken (r := ⟨t, mem⟩) hwell hclean hplaced (hroom hwell)).returns
    refine ⟨_, r, hparse, iff_of_true rfl hwell, fun hnone => (by cases hnone), fun root' heq turns hturns => ?_⟩
    cases heq
    have hnodup : root.addresses.Nodup := hperm.nodup_iff.mpr (htaken.nodup_addresses hplaced)
    refine ⟨_, pparserFree_eq hnodup hnull hturns r, ?_, hnodup, fun addr => ?_, fun _ => rfl⟩
    · show ((root.addresses.foldl (fun s p => kheap.kfree p s) r.heap).heap).table.entries = _
      rw [kfree_heaps]
      exact htaken.released hplaced hperm
    · exact mem_addresses_iff hnodup addr
  · refine ⟨none, _, pparserParse_rejects hwell _, iff_of_false (by decide) hwell, fun _ => rfl, fun root heq => ?_⟩
    cases heq

theorem kheapInit_room {path : List UInt8} (h : pathRoom path ≤ 25600) :
    pathRoom path ≤ (kheapInit fun _ => 0).heap.table.freeBlocks.card := by
  rw [kheapInit_freeBlocks]
  exact h

/-- `0:/a/b`. -/
def pathAB : List UInt8 := [0x30, 0x3A, 0x2F, 0x61, 0x2F, 0x62]

/-- `0:/a//b`. -/
def pathAEmptyB : List UInt8 := [0x30, 0x3A, 0x2F, 0x61, 0x2F, 0x2F, 0x62]

/-- Two components, in the heap as it is made. -/
theorem pparserFree_restores_two : ∃ root r,
    pparserParse kheap pathAB ⟨⟨(kheapInit fun _ => 0).heap, []⟩, fun _ => 0⟩ = .ok (some root, r) ∧
      ∃ u, pparserFree kheap root.parts.length root.addr ⟨r, root.store, []⟩ = .ok ((), u) ∧
        u.ram.heap.heap.table.entries = (kheapInit fun _ => 0).heap.table.entries := by
  have hwell : PathWellFormed pathAB := ⟨by decide, 0x30, [0x61, 0x2F, 0x62], rfl, by decide⟩
  obtain ⟨out, r, hparse, hsome, _, hfree⟩ :=
    pparserFree_restores (t := ⟨(kheapInit fun _ => 0).heap, []⟩) (.start rfl) pathAB
      (fun _ => kheapInit_room (by decide)) fun _ => 0
  obtain ⟨root, rfl⟩ := Option.isSome_iff_exists.mp (hsome.mpr hwell)
  obtain ⟨u, hrun, hentries, _⟩ := hfree root rfl root.parts.length (Nat.le_refl _)
  exact ⟨root, r, hparse, u, hrun, hentries⟩

/-! ### Nothing lost -/

theorem pparserParse_returns (hrun : HeapReached (kheapInit entries).heap t) (path : List UInt8)
    (hroom : PathWellFormed path → pathRoom path ≤ t.heap.table.freeBlocks.card) (mem : Memory) :
    ∃ out r, pparserParse kheap path ⟨t, mem⟩ = .ok (out, r) := by
  by_cases hwell : PathWellFormed path
  · obtain ⟨hclean, hplaced, _⟩ := kheapInit_reached hrun
    obtain ⟨out, r, hparse, _⟩ := (pparserParse_taken (r := ⟨t, mem⟩) hwell hclean hplaced (hroom hwell)).returns
    exact ⟨out, r, hparse⟩
  · exact ⟨_, _, pparserParse_rejects hwell _⟩

/-- **Parsing loses nothing of a path exactly when** it turns it away, or no component that is not
empty stands behind an empty one; this whatever the heap answers, if parsing returns, as it
does where there is room. -/
theorem pparserParse_complete_iff (path : List UInt8) :
    (∀ (H : Type) (A : Allocator H) (r r' : Ram H) (out : Option PathRoot),
      pparserParse A path r = .ok (out, r') →
        (PathParsed path out ↔ (PathWellFormed path → PathComplete path))) ∧
    ∀ (entries : Int → Nat) (t : HeapState) (mem : Memory), HeapReached (kheapInit entries).heap t →
      (PathWellFormed path → pathRoom path ≤ t.heap.table.freeBlocks.card) →
        ∃ out r, pparserParse kheap path ⟨t, mem⟩ = .ok (out, r) :=
  ⟨fun _ _ r _ _ hparse => (pparserParse_parsed path r).returned hparse,
    fun _ _ mem hrun hroom => pparserParse_returns hrun path hroom mem⟩

/-- `0:/a/b` keeps both. -/
theorem pparserParse_complete_two : ∃ out r,
    pparserParse kheap pathAB ⟨⟨(kheapInit fun _ => 0).heap, []⟩, fun _ => 0⟩ = .ok (out, r) ∧
      PathParsed pathAB out := by
  obtain ⟨hiff, hreturns⟩ := pparserParse_complete_iff pathAB
  obtain ⟨out, r, hparse⟩ := hreturns (fun _ => 0) ⟨(kheapInit fun _ => 0).heap, []⟩ (fun _ => 0) (.start rfl)
    fun _ => kheapInit_room (by decide)
  exact ⟨out, r, hparse, (hiff _ _ _ _ _ hparse).mpr fun _ => by decide⟩

/-- **`0:/a//b` loses its second part.** -/
theorem pparserParse_loses : ¬ ∀ (path : List UInt8) (r r' : Ram HeapState) (out : Option PathRoot),
    pparserParse kheap path r = .ok (out, r') → PathParsed path out := by
  intro h
  have hwell : PathWellFormed pathAEmptyB := ⟨by decide, 0x30, [0x61, 0x2F, 0x2F, 0x62], rfl, by decide⟩
  obtain ⟨out, r, hparse⟩ := pparserParse_returns (t := ⟨(kheapInit fun _ => 0).heap, []⟩) (.start rfl) pathAEmptyB
    (fun _ => kheapInit_room (by decide)) fun _ => 0
  have hiff := (pparserParse_parsed pathAEmptyB _).returned hparse
  exact absurd (hiff.mp (h _ _ _ _ hparse) hwell) (by decide)

end BasicOS

import BasicOS.Paging.Generate
import BasicOS.Lib.Run

/-! Address translation follows the mappings.

A run starts from a directory `_gen_paging_4gb` made out of pages the allocator handed
out and takes mapping calls in any order, keeping beside memory the `history` of pages
the successful ones mapped, newest first. `translation history` is the flat map that
history describes: an address goes to the page last mapped at its own, or to itself.
`translation_follows_mappings` says the two-level directory computes that map in every
state, and that a call which fails changes nothing. -/
namespace BasicOS
open Lib

/-! ### The flat map -/

/-- The translation a history of mapped pages, newest first, describes. -/
def translation (history : List (Nat × Nat)) (a : Nat) : Nat :=
  match history.find? (·.1 = a - a % pagingPageSize) with
  | some m => m.2 + a % pagingPageSize
  | none => a

/-! ### Runs -/

inductive PagingOp where
  | map (vAddr pAddr : Nat) (flags : Int)
  | mapRange (vAddr pAddr count : Nat) (flags : Int)
  | mapTo (vAddr pAddr pAddrEnd : Nat) (flags : Int)

/-- The call the operation makes. -/
def PagingOp.call (mem : Memory) (chunk : Nat) : PagingOp → Int × Memory
  | .map vAddr pAddr flags => pagingMap mem chunk vAddr pAddr flags
  | .mapRange vAddr pAddr count flags => pagingMapRange mem chunk vAddr pAddr count flags
  | .mapTo vAddr pAddr pAddrEnd flags => pagingMapTo mem chunk vAddr pAddr pAddrEnd flags

/-- The pages a successful call maps, in order. -/
def PagingOp.pages : PagingOp → List (Nat × Nat)
  | .map vAddr pAddr _ => [(vAddr, pAddr)]
  | .mapRange vAddr pAddr count _ => pagesFrom vAddr pAddr count
  | .mapTo vAddr pAddr pAddrEnd _ => pagesFrom vAddr pAddr ((pAddrEnd - pAddr) / pagingPageSize)

/-- 32-bit addresses and counts, and flags below a page. -/
def PagingOp.Legal : PagingOp → Prop
  | .map vAddr pAddr flags => vAddr < 2 ^ 32 ∧ pAddr < 2 ^ 32 ∧ 0 ≤ flags ∧ flags < pagingPageSize
  | .mapRange vAddr pAddr count flags =>
    vAddr < 2 ^ 32 ∧ pAddr < 2 ^ 32 ∧ count < 2 ^ 32 ∧ 0 ≤ flags ∧ flags < pagingPageSize
  | .mapTo vAddr pAddr pAddrEnd flags =>
    vAddr < 2 ^ 32 ∧ pAddr < 2 ^ 32 ∧ pAddrEnd < 2 ^ 32 ∧ 0 ≤ flags ∧ flags < pagingPageSize

structure PagingState where
  mem : Memory
  history : List (Nat × Nat)

def PagingState.step (chunk : Nat) (s : PagingState) (op : PagingOp) : PagingState :=
  ⟨(op.call s.mem chunk).2,
    if (op.call s.mem chunk).1 < 0 then s.history else op.pages.reverse ++ s.history⟩

/-- The states of the runs from a fresh directory. -/
abbrev PagingRun (chunk : Nat) (mem : Memory) : PagingState → Prop :=
  Run (fun s op t => t = s.step chunk op) (fun _ op => op.Legal) (· = ⟨mem, []⟩)

/-- An allocator that answers its `k`-th request with the page `blocks k`. -/
def blockSequence (blocks : Nat → Nat) : Allocator Nat where
  kmalloc _ k := some (blocks k, k + 1)
  kfree _ k := k

/-! ### The flat table and the history -/

/-- The words of the table give the pages the history mapped last. -/
def Follows (entry : Nat → Nat) (history : List (Nat × Nat)) : Prop :=
  ∀ k, k < 2 ^ 20 → entry k < 2 ^ 32 ∧
    entry k - entry k % pagingPageSize = translation history (k * pagingPageSize)

theorem translation_page (history : List (Nat × Nat)) (k : Nat) :
    translation history (k * pagingPageSize) =
      match history.find? (·.1 = k * pagingPageSize) with
      | some m => m.2
      | none => k * pagingPageSize := by
  unfold translation
  rw [Nat.mul_mod_left, Nat.sub_zero]
  rfl

/-- An address keeps its offset in the page. -/
theorem translation_offset (history : List (Nat × Nat)) (a : Nat) :
    translation history a = translation history (a / pagingPageSize * pagingPageSize) + a % pagingPageSize := by
  have hbase : a - a % pagingPageSize = a / pagingPageSize * pagingPageSize := by
    simp only [pagingPageSize]
    omega
  rw [translation_page]
  unfold translation
  rw [hbase]
  cases history.find? (·.1 = a / pagingPageSize * pagingPageSize) with
  | none => simp only [pagingPageSize]; omega
  | some m => rfl

/-- Where the latest mappings of a page are all to the same one, it is translated to that. -/
theorem translation_latest {latest history : List (Nat × Nat)} {a frame : Nat}
    (hmapped : ∃ m ∈ latest, m.1 = a - a % pagingPageSize)
    (hsame : ∀ m ∈ latest, m.1 = a - a % pagingPageSize → m.2 = frame) :
    translation (latest ++ history) a = frame + a % pagingPageSize := by
  unfold translation
  rw [List.find?_append]
  cases hfind : latest.find? (·.1 = a - a % pagingPageSize) with
  | some m =>
    have hpage : m.1 = a - a % pagingPageSize := by simpa using List.find?_some hfind
    exact congrArg (· + a % pagingPageSize) (hsame m (List.mem_of_find?_eq_some hfind) hpage)
  | none =>
    obtain ⟨m, hm, hpage⟩ := hmapped
    exact absurd (decide_eq_true hpage) (List.find?_eq_none.mp hfind m hm)

theorem follows_identity {flags : Nat} (hflags : flags < 2 ^ 8) : Follows (identityEntry flags) [] := by
  intro k hk
  rw [translation_page]
  show _ ∧ _ = k * pagingPageSize
  simp only [identityEntry, pagingPageSize]
  omega

/-- Mapping one page. -/
theorem Follows.update {entry : Nat → Nat} {history : List (Nat × Nat)} (h : Follows entry history)
    {vAddr pAddr bits : Nat} (hv : vAddr % pagingPageSize = 0) (hp : pAddr % pagingPageSize = 0)
    (hp32 : pAddr < 2 ^ 32) (hbits : bits < pagingPageSize) :
    Follows (Function.update entry (vAddr / pagingPageSize) (pAddr + bits)) ((vAddr, pAddr) :: history) := by
  intro k hk
  rw [translation_page, List.find?_cons]
  by_cases hkv : k = vAddr / pagingPageSize
  · have hbase : vAddr = k * pagingPageSize := by
      simp only [pagingPageSize] at *
      omega
    subst hkv
    rw [Function.update_self]
    simp only [← hbase, decide_true]
    simp only [pagingPageSize] at *
    omega
  · have hbase : vAddr ≠ k * pagingPageSize := by
      simp only [pagingPageSize] at *
      omega
    rw [Function.update_of_ne hkv]
    simp only [hbase, decide_false]
    rw [← translation_page]
    exact h k hk

/-- Mapping pages in order. -/
theorem Follows.mapEntries {entry : Nat → Nat} {history : List (Nat × Nat)} (h : Follows entry history)
    {bits : Nat} (hbits : bits < pagingPageSize) {pages : List (Nat × Nat)}
    (hpages : ∀ m ∈ pages, m.1 % pagingPageSize = 0 ∧ m.2 % pagingPageSize = 0 ∧ m.2 < 2 ^ 32) :
    Follows (mapEntries entry bits pages) (pages.reverse ++ history) := by
  induction pages generalizing entry history with
  | nil => exact h
  | cons m rest ih =>
    obtain ⟨hv, hp, hp32⟩ := hpages m (List.mem_cons_self ..)
    rw [mapEntries_cons, List.reverse_cons, List.append_assoc]
    exact ih (h.update hv hp hp32 hbits) fun n hn => hpages n (List.mem_cons_of_mem _ hn)

theorem pagesFrom_aligned {vAddr pAddr count : Nat} (hv : vAddr % pagingPageSize = 0)
    (hp : pAddr % pagingPageSize = 0) :
    ∀ m ∈ pagesFrom vAddr pAddr count, m.1 % pagingPageSize = 0 ∧ m.2 % pagingPageSize = 0 ∧ m.2 < 2 ^ 32 := by
  intro m hm
  obtain ⟨i, _, rfl⟩ := List.mem_map.mp hm
  simp only [u32, pagingPageSize] at *
  omega

/-! ### The invariant -/

/-- Memory holds a directory that follows the history. -/
def PagingInv (D : DirectoryBlocks) (chunk : Nat) (s : PagingState) : Prop :=
  ChunkOf D chunk s.mem ∧ ∃ entry, Tables D entry s.mem ∧ Follows entry s.history

/-- In such a state every address is translated as the history says. -/
theorem PagingInv.translate {D : DirectoryBlocks} {chunk : Nat} {s : PagingState} (h : PagingInv D chunk s)
    {a : Nat} (ha : a < 2 ^ 32) :
    pagingGetPhysicalAddress s.mem (read32 s.mem chunk) a = translation s.history a := by
  obtain ⟨hchunk, entry, htables, hfollows⟩ := h
  obtain ⟨hentry, hpage⟩ := hfollows (a / pagingPageSize) (by simp only [pagingPageSize]; omega)
  rw [hchunk.directory, htables.translate ha hentry, hpage, ← translation_offset]

/-- A range of pages mapped by a call that returned zero. -/
theorem PagingInv.mapped {D : DirectoryBlocks} {chunk : Nat} {s : PagingState} (h : PagingInv D chunk s)
    {vAddr pAddr count : Nat} {flags : Int} (hv : vAddr % pagingPageSize = 0) (hp : pAddr % pagingPageSize = 0)
    (hv32 : vAddr < 2 ^ 32) (hp32 : pAddr < 2 ^ 32) (hflags : 0 ≤ flags ∧ flags < pagingPageSize) :
    (pagingMapRange s.mem chunk vAddr pAddr count flags).1 = 0 ∧
      PagingInv D chunk ⟨(pagingMapRange s.mem chunk vAddr pAddr count flags).2,
        (pagesFrom vAddr pAddr count).reverse ++ s.history⟩ := by
  obtain ⟨hchunk, entry, htables, hfollows⟩ := h
  obtain ⟨hres, htables', hsame⟩ := htables.mapRangeFrom hchunk hv hp hv32 hp32 hflags count
  refine ⟨hres, hchunk.congr hsame, _, htables', hfollows.mapEntries ?_ (pagesFrom_aligned hv hp)⟩
  omega

/-- Every call either succeeds and maps its pages or fails and leaves memory alone. -/
theorem PagingInv.call {D : DirectoryBlocks} {chunk : Nat} {s : PagingState} (h : PagingInv D chunk s)
    {op : PagingOp} (hlegal : op.Legal) :
    ((op.call s.mem chunk).1 = 0 ∧ PagingInv D chunk ⟨(op.call s.mem chunk).2, op.pages.reverse ++ s.history⟩) ∨
      op.call s.mem chunk = (-einvarg, s.mem) := by
  cases op with
  | map vAddr pAddr flags =>
    obtain ⟨hv32, hp32, hflags⟩ := hlegal
    by_cases halign : vAddr % pagingPageSize = 0 ∧ pAddr % pagingPageSize = 0
    · obtain ⟨hchunk, entry, htables, hfollows⟩ := h
      obtain ⟨hres, htables', hsame⟩ := htables.map hchunk halign.1 halign.2 hv32 hp32 hflags
      exact .inl ⟨hres, hchunk.congr hsame, _, htables',
        hfollows.update halign.1 halign.2 hp32 (by omega)⟩
    · exact .inr (pagingMap_unaligned flags halign)
  | mapRange vAddr pAddr count flags =>
    obtain ⟨hv32, hp32, _, hflags⟩ := hlegal
    by_cases halign : vAddr % pagingPageSize = 0 ∧ pAddr % pagingPageSize = 0
    · exact .inl (h.mapped halign.1 halign.2 hv32 hp32 hflags)
    · cases count with
      | zero => exact .inl ⟨rfl, h⟩
      | succ n => exact .inr (pagingMapRange_unaligned flags halign (by omega))
  | mapTo vAddr pAddr pAddrEnd flags =>
    obtain ⟨hv32, hp32, _, hflags⟩ := hlegal
    simp only [PagingOp.call, pagingMapTo, PagingOp.pages]
    split
    · exact .inr rfl
    · exact .inl (h.mapped (by omega) (by omega) hv32 hp32 hflags)

theorem PagingInv.step {D : DirectoryBlocks} {chunk : Nat} {s : PagingState} (h : PagingInv D chunk s)
    {op : PagingOp} (hlegal : op.Legal) : PagingInv D chunk (s.step chunk op) := by
  unfold PagingState.step
  rcases h.call hlegal with ⟨hres, hinv⟩ | hfail
  · rw [hres]
    exact hinv
  · rw [hfail]
    exact h

/-! ### The fresh directory -/

/-- The sequence serves the call. -/
theorem blockSequence_serves {blocks : Nat → Nat}
    (hblocks : ∀ i, i ≤ 1025 → blocks i ≠ 0 ∧ blocks i < 2 ^ 32 ∧ blocks i % pagingPageSize = 0)
    (hdistinct : ∀ i j, i ≤ 1025 → j ≤ 1025 → blocks i = blocks j → i = j) : Serves (blockSequence blocks) id blocks := by
  refine ⟨fun _ _ => rfl, rfl, fun i hi => (hblocks i hi).1, fun i hi => ?_, hdistinct⟩
  obtain ⟨_, hlt, halign⟩ := hblocks i hi
  unfold IsPage
  simp only [pagingPageSize] at *
  omega

/-- **Address translation follows the mappings**, in every state of every run, and a call
that fails leaves every translation as it was. -/
theorem translation_follows_mappings (flags : Nat) (hflags : flags < 2 ^ 8)
    (hpresent : flags &&& pagingMasksIsPresent ≠ 0) (blocks : Nat → Nat)
    (hblocks : ∀ i, i ≤ 1025 → blocks i ≠ 0 ∧ blocks i < 2 ^ 32 ∧ blocks i % pagingPageSize = 0)
    (hdistinct : ∀ i j, i ≤ 1025 → j ≤ 1025 → blocks i = blocks j → i = j) (start : Memory) :
    ∃ chunk mem, genPaging4gb (blockSequence blocks) flags ⟨0, start⟩ = .ok (chunk, ⟨1026, mem⟩) ∧
      ∀ s, PagingRun chunk mem s →
        (∀ a, a < 2 ^ 32 →
          pagingGetPhysicalAddress s.mem (read32 s.mem chunk) a = translation s.history a) ∧
        ∀ op : PagingOp, op.Legal → (op.call s.mem chunk).1 < 0 → ∀ a, a < 2 ^ 32 →
          pagingGetPhysicalAddress (op.call s.mem chunk).2 (read32 (op.call s.mem chunk).2 chunk) a =
            pagingGetPhysicalAddress s.mem (read32 s.mem chunk) a := by
  have hodd : flags % 2 = 1 := by
    rw [pagingMasksIsPresent, Nat.and_one_is_mod] at hpresent
    omega
  have hserves := blockSequence_serves hblocks hdistinct
  obtain ⟨made, hgen, hchunk, zeroed, hmade⟩ := hserves.genPaging4gb flags start
  let D := directoryOfBlocks blocks hserves.page hserves.distinct
  have hinv : PagingInv D (blocks 1025) ⟨made, []⟩ := by
    refine ⟨hchunk, _, (tables_generated (D := D) zeroed hflags hodd).congr (fun b hb => ?_) fun b hb => ?_,
      follows_identity hflags⟩
    · exact hmade b (.inl hb)
    · exact hmade b (.inr hb)
  refine ⟨blocks 1025, made, hgen, fun s hrun => ?_⟩
  have hs : PagingInv D (blocks 1025) s := by
    refine hrun.invariant (fun s hs => hs ▸ hinv) fun s op t h hlegal hstep => ?_
    subst hstep
    exact h.step hlegal
  refine ⟨fun a ha => hs.translate ha, fun op hlegal hneg a ha => ?_⟩
  rcases hs.call hlegal with ⟨hres, _⟩ | hfail
  · rw [hres] at hneg
    omega
  · rw [hfail]

/-- Over pages handed out one after another, a fresh directory maps 0x1004 to itself. -/
theorem translation_fresh_directory :
    ∃ chunk mem, genPaging4gb (blockSequence fun i => (i + 1) * pagingPageSize) 3 ⟨0, fun _ => 0⟩ =
      .ok (chunk, ⟨1026, mem⟩) ∧ pagingGetPhysicalAddress mem (read32 mem chunk) 0x1004 = 0x1004 := by
  obtain ⟨chunk, mem, hgen, hruns⟩ := translation_follows_mappings 3 (by decide) (by decide)
    (fun i => (i + 1) * pagingPageSize) (fun i hi => by simp only [pagingPageSize]; omega)
    (fun i j _ _ heq => by simp only [pagingPageSize] at heq; omega) fun _ => 0
  exact ⟨chunk, mem, hgen, (hruns ⟨mem, []⟩ (.start rfl)).1 0x1004 (by decide)⟩

end BasicOS

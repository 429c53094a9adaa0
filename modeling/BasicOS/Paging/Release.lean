import BasicOS.Heap.Blocks
import BasicOS.Memory.KernelHeap
import BasicOS.Paging.Lifetime
import BasicOS.Paging.Translation

/-! A directory leaves nothing behind in the heap.

`_gen_paging_4gb` takes 1026 blocks, one by one, where the heap has them free. Their addresses
are then in the words of the directory only, beside the flags. Mapping calls write to the
tables, whatever flags they are given, and not to these words, so that `paging_free_4gb` finds
every address again: the table of the heap is as before the creation
(`pagingFree4gb_restores`). -/
namespace BasicOS
open Lib Program

/-! ### Mapping calls with any flags -/

variable {D : DirectoryBlocks} {chunk : Nat} {mem m : Memory}

theorem DirectoryBlocks.Addressed.congr (h : D.Addressed mem) (hsame : D.SameElsewhere mem m) : D.Addressed m := by
  intro i hi
  refine (congrArg (· &&& 0xFFFFF000) (read32_congr fun b h1 h2 => hsame b ?_)).trans (h i hi)
  -- the directory is another page than its tables
  rintro ⟨k, hk, hheld⟩
  have hapart := (D.tables_page k hk).apart D.directory_page (D.tables_ne k hk)
  rw [Extent.holds_mk] at hheld
  simp only [pagingPageSize] at hapart hheld
  omega

/-- `paging_set` writes to a table. -/
theorem DirectoryBlocks.Addressed.set (h : D.Addressed mem) {vAddr : Nat} (hv : vAddr < 2 ^ 32) (val : Nat) :
    D.SameElsewhere mem (pagingSet mem D.directory vAddr val).2 := by
  unfold pagingSet
  split
  · exact fun _ _ => rfl
  rename_i haligned
  have halign : vAddr % pagingPageSize = 0 := (pagingIsAligned_iff vAddr).mp (by simpa using haligned)
  have hpage : vAddr = vAddr / pagingPageSize * pagingPageSize := by
    simp only [pagingPageSize] at *
    omega
  have hk : vAddr / pagingPageSize / 1024 < 1024 := by
    simp only [pagingPageSize]
    omega
  rw [hpage, pagingGetIndexes_page]
  simp only [Int.lt_irrefl, if_false, pagingTotalTableEntriesPerDirectory, pagingTotalEntriesPerTable, h _ hk]
  refine fun b hb => sameOutside_write32 mem _ val b fun hheld => hb ⟨_, hk, ?_⟩
  generalize D.tables (vAddr / pagingPageSize / 1024) = table at hheld
  rw [Extent.holds_mk] at hheld ⊢
  simp only [pagingPageSize]
  omega

theorem DirectoryBlocks.Addressed.map (h : D.Addressed mem) (hchunk : ChunkOf D chunk mem) {vAddr : Nat}
    (hv : vAddr < 2 ^ 32) (pAddr : Nat) (flags : Int) :
    D.SameElsewhere mem (pagingMap mem chunk vAddr pAddr flags).2 := by
  unfold pagingMap
  split
  · exact fun _ _ => rfl
  · rw [hchunk.directory]
    exact h.set hv _

theorem DirectoryBlocks.Addressed.mapRangeFrom (h : D.Addressed mem) (hchunk : ChunkOf D chunk mem) {vAddr : Nat}
    (hv : vAddr < 2 ^ 32) (pAddr : Nat) (flags : Int) (count : Nat) (res : Int) :
    D.SameElsewhere mem (pagingMapRangeFrom chunk flags count mem vAddr pAddr res).2 := by
  induction count generalizing mem vAddr pAddr res with
  | zero => exact fun _ _ => rfl
  | succ count ih =>
    have hfirst := h.map hchunk hv pAddr flags
    unfold pagingMapRangeFrom
    simp only
    split
    · exact hfirst
    · exact fun b hb => (ih (h.congr hfirst) (hchunk.congr hfirst) (u32_lt _) _ _ b hb).trans (hfirst b hb)

/-- The address mapped is one of the machine's. -/
def PagingOp.Mapped : PagingOp → Prop
  | .map vAddr _ _ => vAddr < 2 ^ 32
  | .mapRange vAddr _ _ _ => vAddr < 2 ^ 32
  | .mapTo vAddr _ _ _ => vAddr < 2 ^ 32

/-- Memory after the calls, in order. -/
def pagingCalls (chunk : Nat) (mem : Memory) (ops : List PagingOp) : Memory :=
  ops.foldl (fun mem op => (op.call mem chunk).2) mem

theorem DirectoryBlocks.Addressed.call (h : D.Addressed mem) (hchunk : ChunkOf D chunk mem) {op : PagingOp}
    (hop : op.Mapped) : D.SameElsewhere mem (op.call mem chunk).2 := by
  cases op with
  | map vAddr pAddr flags => exact h.map hchunk hop pAddr flags
  | mapRange vAddr pAddr count flags => exact h.mapRangeFrom hchunk hop pAddr flags count 0
  | mapTo vAddr pAddr pAddrEnd flags =>
    unfold PagingOp.call pagingMapTo
    simp only
    split
    · exact fun _ _ => rfl
    · exact h.mapRangeFrom hchunk hop pAddr flags _ 0

/-- **The words of the directory outlast any calls.** -/
theorem pagingCalls_addressed (h : D.Addressed mem) (hchunk : ChunkOf D chunk mem) {ops : List PagingOp}
    (hops : ∀ op ∈ ops, op.Mapped) :
    D.Addressed (pagingCalls chunk mem ops) ∧ ChunkOf D chunk (pagingCalls chunk mem ops) := by
  induction ops generalizing mem with
  | nil => exact ⟨h, hchunk⟩
  | cons op rest ih =>
    have hsame := h.call hchunk (hops op (List.mem_cons_self ..))
    exact ih (h.congr hsame) (hchunk.congr hsame) fun op' hop' => hops op' (List.mem_cons_of_mem op hop')

/-! ### The release -/

section Release

variable {H : Type} {A : Allocator H}

/-- The loop releases the tables. -/
theorem freeTables_eq (h : D.Addressed mem) (hchunk : ChunkOf D chunk mem) (heap : H) {n : Nat} (hn : n ≤ 1024) :
    freeTables A chunk n ⟨heap, mem⟩ =
      .ok ((), ⟨(tablesBelow D.tables n).foldl (fun heap p => A.kfree p heap) heap, mem⟩) := by
  induction n with
  | zero => rfl
  | succ n ih =>
    refine bind_ok.mpr ⟨_, _, ih (by omega), ?_⟩
    show Except.ok ((), (⟨A.kfree (read32 mem (read32 mem chunk + 4 * n) &&& 0xFFFFF000) _, mem⟩ : Ram H)) = _
    rw [hchunk.directory, h n (by omega), tablesBelow_succ, List.foldl_append]
    rfl

attribute [local irreducible] freeTables tablesBelow

theorem pagingFree4gb_eq (h : D.Addressed mem) (hchunk : ChunkOf D chunk mem) (heap : H) :
    pagingFree4gb A chunk ⟨heap, mem⟩ =
      .ok ((), ⟨(tablesBelow D.tables 1024 ++ [D.directory, chunk]).foldl (fun heap p => A.kfree p heap) heap,
        mem⟩) := by
  unfold pagingFree4gb
  refine bind_ok.mpr ⟨_, _, freeTables_eq h hchunk heap (Nat.le_refl 1024), ?_⟩
  show Except.ok ((), (⟨A.kfree chunk (A.kfree (read32 mem chunk) _), mem⟩ : Ram H)) = _
  rw [hchunk.directory, List.foldl_append]
  rfl

/-- The blocks in the order of their release. -/
theorem released_perm (blocks : Nat → Nat) (n : Nat) :
    (tablesBelow (fun i => blocks (1 + i)) n ++ [blocks 0, blocks (n + 1)]).Perm (tablesBelow blocks (n + 2)) := by
  have hfirst : tablesBelow blocks (n + 1) = blocks 0 :: tablesBelow (fun i => blocks (1 + i)) n := by
    unfold tablesBelow
    rw [List.range_succ_eq_map, List.map_cons, List.map_map]
    refine congrArg (blocks 0 :: ·) (List.map_congr_left fun i _ => ?_)
    rw [Function.comp, Nat.succ_eq_one_add]
  rw [tablesBelow_succ blocks (n + 1), hfirst, ← List.singleton_append (l := [blocks (n + 1)]), ← List.append_assoc]
  exact (List.perm_append_singleton _ _).append_right _

end Release

/-! ### The heap meanwhile -/

/-- The size of request `i` of `_gen_paging_4gb`. -/
def genSize (i : Nat) : Nat := if i ≤ 1024 then 4 * pagingTotalEntriesPerTable else 4

/-- The heap after the first `i` requests. -/
def servedHeap (s : HeapState) : Nat → HeapState
  | 0 => s
  | i + 1 => (servedHeap s i).step (.alloc (genSize i))

/-- What request `i` is answered with. -/
def servedBlock (s : HeapState) (i : Nat) : Nat := (heapAlloc (servedHeap s i).heap (genSize i)).1

theorem blocksOf_genSize (i : Nat) : blocksOf (genSize i) = 1 := by
  unfold genSize
  split <;> decide

variable {s : HeapState}

theorem servedHeap_zero (s : HeapState) : servedHeap s 0 = s := rfl

theorem servedHeap_succ (s : HeapState) (n : Nat) :
    (servedHeap s (n + 1)).heap = (heapAlloc (servedHeap s n).heap (genSize n)).2 := rfl

theorem kheap_answers (s : HeapState) (i : Nat) :
    kheap.kmalloc (genSize i) (servedHeap s i) = some (servedBlock s i, servedHeap s (i + 1)) := rfl

/-- The first `n` requests take as many free blocks. -/
theorem servedHeap_taken (hclean : s.heap.table.Clean) (hplaced : s.heap.Placed) {n : Nat}
    (hroom : n ≤ s.heap.table.freeBlocks.card) :
    ∃ xs, xs.length = n ∧ TakenFrom s.heap (servedHeap s n).heap xs ∧
      tablesBelow (servedBlock s) n = xs.reverse.map (heapBlockToAddress s.heap) := by
  induction n with
  | zero => exact ⟨[], rfl, TakenFrom.refl _, rfl⟩
  | succ n ih =>
    obtain ⟨xs, hlen, htaken, hblocks⟩ := ih (by omega)
    obtain ⟨b, hptr, hnext⟩ := htaken.alloc hclean hplaced.total_lt (by omega) (blocksOf_genSize n)
    have hblock : servedBlock s n = heapBlockToAddress s.heap b := hptr
    rw [← servedHeap_succ] at hnext
    refine ⟨b :: xs, by rw [List.length_cons, hlen], hnext, ?_⟩
    rw [tablesBelow_succ, hblocks, List.reverse_cons, List.map_append, List.map_singleton, hblock]

attribute [local irreducible] servedHeap servedBlock tablesBelow

/-- The heap serves the call. -/
theorem servedHeap_serves (hclean : s.heap.table.Clean) (hplaced : s.heap.Placed)
    (halign : s.heap.baseAddr % heapBlockSize = 0) (hroom : 1026 ≤ s.heap.table.freeBlocks.card) :
    Serves kheap (servedHeap s) (servedBlock s) := by
  obtain ⟨xs, _, htaken, hblocks⟩ := servedHeap_taken hclean hplaced hroom
  have hin : ∀ i, i ≤ 1025 → ∃ b, b < s.heap.table.totalEntries ∧ servedBlock s i = heapBlockToAddress s.heap b := by
    intro i hi
    have hmem : servedBlock s i ∈ tablesBelow (servedBlock s) 1026 := mem_tablesBelow.mpr ⟨i, by omega, rfl⟩
    rw [hblocks] at hmem
    obtain ⟨b, hb, heq⟩ := List.mem_map.mp hmem
    exact ⟨b, (htaken.free b (List.mem_reverse.mp hb)).1, heq.symm⟩
  have hnodup : (tablesBelow (servedBlock s) 1026).Nodup := by
    rw [hblocks]
    exact (htaken.perm (List.reverse_perm xs).symm).nodup_addresses hplaced
  have hbelow := hplaced.below
  refine ⟨fun i hi => ?_, ?_, fun i hi hnull => ?_, fun i hi => ?_, fun i j hi hj => ?_⟩
  · have hsize : genSize i = 4 * pagingTotalEntriesPerTable := if_pos hi
    rw [← hsize]
    exact kheap_answers s i
  · have hsize : genSize 1025 = 4 := if_neg (by decide)
    rw [← hsize]
    exact kheap_answers s 1025
  · obtain ⟨b, hb, heq⟩ := hin i hi
    exact heapBlockToAddress_ne_zero hplaced hb (heq.symm.trans hnull)
  · obtain ⟨b, hb, heq⟩ := hin i hi
    rw [heq, heapBlockToAddress_eq hplaced hb]
    unfold IsPage
    simp only [heapBlockSize, pagingPageSize] at *
    omega
  · exact tablesBelow_inj hnodup (by omega) (by omega)

theorem kfree_heaps (ptrs : List Nat) (s : HeapState) :
    (ptrs.foldl (fun s p => kheap.kfree p s) s).heap = ptrs.foldl heapFree s.heap := by
  induction ptrs generalizing s with
  | nil => rfl
  | cons ptr rest ih => exact ih _

/-! ### The whole life -/

/-- `kernel_heap` after `kheap_init`, over whatever bytes there were in the place of its table. -/
def kheapInit (entries : Int → Nat) : MadeHeap :=
  makeHeap ⟨⟨fun _ => 0, 0, []⟩, 0⟩ (fun _ => 0) heapBaseAddress (heapBaseAddress + heapMaxHeapSize)
    ⟨entries, heapMaxHeapBlocksEntries, []⟩

theorem kheapInit_res (entries : Int → Nat) : (kheapInit entries).res = 0 := by
  have hvalid : heapValidateTable heapBaseAddress (heapBaseAddress + heapMaxHeapSize)
      ⟨entries, heapMaxHeapBlocksEntries, []⟩ = 0 := by
    have hblocks : heapMaxHeapBlocksEntries =
        u32 (heapBaseAddress + heapMaxHeapSize + 2 ^ 32 - heapBaseAddress) / heapBlockSize := by decide
    unfold heapValidateTable
    rw [if_neg (not_not_intro hblocks)]
  unfold kheapInit makeHeap
  rw [if_neg (by decide)]
  simp only [hvalid]
  split <;> rfl

/-- Whatever is done to the heap, its free entries are zero, and it lies where it was made. -/
theorem kheapInit_reached {entries : Int → Nat} (hrun : HeapReached (kheapInit entries).heap s) :
    s.heap.table.Clean ∧ s.heap.Placed ∧ s.heap.baseAddr = heapBaseAddress := by
  obtain ⟨hclean, htotal, hbase⟩ := heap_clean (Int.le_of_eq (kheapInit_res entries).symm) hrun
  refine ⟨hclean, ⟨by rw [hbase]; decide, ?_⟩, hbase⟩
  rw [hbase, htotal]
  show heapBaseAddress + heapMaxHeapBlocksEntries * heapBlockSize ≤ 2 ^ 32
  decide

/-- **A directory is released completely**: in every state of the heap with 1026 free blocks, with
any flags, and whatever is mapped meanwhile, the table of the heap is as before the creation. -/
theorem pagingFree4gb_restores {entries : Int → Nat} (hrun : HeapReached (kheapInit entries).heap s)
    (hroom : 1026 ≤ s.heap.table.freeBlocks.card) {flags : Nat} (hflags : flags < 2 ^ 8) (start : Memory) :
    ∃ chunk t mem, genPaging4gb kheap flags ⟨s, start⟩ = .ok (chunk, ⟨t, mem⟩) ∧
      ∀ ops : List PagingOp, (∀ op ∈ ops, op.Mapped) →
        ∃ u, pagingFree4gb kheap chunk ⟨t, pagingCalls chunk mem ops⟩ = .ok ((), ⟨u, pagingCalls chunk mem ops⟩) ∧
          u.heap.table.entries = s.heap.table.entries := by
  obtain ⟨hclean, hplaced, hbase⟩ := kheapInit_reached hrun
  have halign : s.heap.baseAddr % heapBlockSize = 0 := by
    rw [hbase]
    decide
  have hserves := servedHeap_serves hclean hplaced halign hroom
  obtain ⟨mem, hgen, hchunk, zeroed, hmem⟩ := hserves.genPaging4gb flags start
  rw [servedHeap_zero] at hgen
  obtain ⟨xs, _, htaken, hblocks⟩ := servedHeap_taken hclean hplaced hroom
  let D := directoryOfBlocks (servedBlock s) hserves.page hserves.distinct
  have haddressed : D.Addressed mem := by
    intro i hi
    rw [read32_congr fun b h1 h2 => hmem b (.inl ?_)]
    · exact addressed_generated (D := D) zeroed hflags i hi
    · rw [Extent.holds_mk]
      simp only [pagingPageSize, D, directoryOfBlocks] at *
      omega
  refine ⟨servedBlock s 1025, servedHeap s 1026, mem, hgen, fun ops hops => ?_⟩
  obtain ⟨hwords, hmap⟩ := pagingCalls_addressed haddressed hchunk hops
  refine ⟨_, pagingFree4gb_eq hwords hmap _, ?_⟩
  rw [kfree_heaps]
  refine htaken.released hplaced ((released_perm (servedBlock s) 1024).trans ?_)
  rw [hblocks]
  exact (List.reverse_perm xs).map _

/-- At first every block is free. -/
theorem kheapInit_freeBlocks (entries : Int → Nat) : (kheapInit entries).heap.table.freeBlocks.card = 25600 := by
  obtain ⟨htotal, hentries, _⟩ := clear_spec ⟨entries, heapMaxHeapBlocksEntries, []⟩ heapMaxHeapBlocksEntries
  have haccepted : (kheapInit entries).heap = _ := makeHeap_accepted (Int.le_of_eq (kheapInit_res entries).symm)
  rw [haccepted]
  unfold HeapTable.freeBlocks
  rw [Finset.filter_true_of_mem, Finset.card_range]
  · exact htotal
  · intro i hi
    rw [Finset.mem_range] at hi
    change i < (HeapTable.clear _ heapMaxHeapBlocksEntries).totalEntries at hi
    rw [htotal] at hi
    unfold HeapTable.Free
    rw [show (HeapTable.clear _ heapMaxHeapBlocksEntries).entries i = heapBlockTableEntryFree from
      (hentries i).trans (if_pos ⟨Int.natCast_nonneg i, by exact_mod_cast hi⟩)]
    rfl

/-- A directory that is not present, and one page mapped. -/
theorem pagingFree4gb_restores_fresh : ∃ chunk t mem,
    genPaging4gb kheap 0 ⟨⟨(kheapInit fun _ => 0).heap, []⟩, fun _ => 0⟩ = .ok (chunk, ⟨t, mem⟩) ∧
      ∃ u, pagingFree4gb kheap chunk ⟨t, pagingCalls chunk mem [.map 0x1000 0x2000 7]⟩ =
          .ok ((), ⟨u, pagingCalls chunk mem [.map 0x1000 0x2000 7]⟩) ∧
        u.heap.table.entries = (kheapInit fun _ => 0).heap.table.entries := by
  have hroom : 1026 ≤ (kheapInit fun _ => 0).heap.table.freeBlocks.card := by
    rw [kheapInit_freeBlocks]
    decide
  obtain ⟨chunk, t, mem, hgen, hfree⟩ := pagingFree4gb_restores (s := ⟨(kheapInit fun _ => 0).heap, []⟩) (.start rfl)
    hroom (show 0 < 2 ^ 8 by decide) fun _ => 0
  refine ⟨chunk, t, mem, hgen, hfree [.map 0x1000 0x2000 7] fun op hop => ?_⟩
  rw [List.mem_singleton.mp hop]
  exact (by decide : 0x1000 < 2 ^ 32)

end BasicOS

import BasicOS.Memory.Contract
import BasicOS.Paging.Generate
import Mathlib.Data.List.Nodup

/-! The life of a directory over an allocator that meets its contract.

`_gen_paging_4gb` takes 1026 blocks: the directory, its 1024 tables and the memory map,
and leaves the identity in them (`genPaging4gb_spec`). `paging_free_4gb` reads the same
addresses back out of the directory and releases exactly these blocks
(`pagingFree4gb_spec`). -/
namespace BasicOS
open Lib Program

variable {H : Type} {A : Allocator H} {C : Contract A} {r₀ r r₁ : Ram H} {D : DirectoryBlocks} {chunk : Nat}

/-- The first `n` tables. -/
def tablesBelow (tables : Nat → Nat) (n : Nat) : List Nat := (List.range n).map tables

theorem tablesBelow_zero (tables : Nat → Nat) : tablesBelow tables 0 = [] := rfl

theorem mem_tablesBelow {tables : Nat → Nat} {n p : Nat} : p ∈ tablesBelow tables n ↔ ∃ i, i < n ∧ tables i = p := by
  unfold tablesBelow
  simp only [List.mem_map, List.mem_range]

theorem tablesBelow_succ (tables : Nat → Nat) (n : Nat) :
    tablesBelow tables (n + 1) = tablesBelow tables n ++ [tables n] := by
  unfold tablesBelow
  rw [List.range_succ, List.map_append]
  rfl

theorem tablesBelow_congr {tables tables' : Nat → Nat} {n : Nat} (h : ∀ i, i < n → tables' i = tables i) :
    tablesBelow tables' n = tablesBelow tables n :=
  List.map_congr_left fun i hi => h i (List.mem_range.mp hi)

theorem tablesBelow_inj {tables : Nat → Nat} {n i j : Nat} (h : (tablesBelow tables n).Nodup) (hi : i < n) (hj : j < n)
    (heq : tables i = tables j) : i = j :=
  List.inj_on_of_nodup_map h (List.mem_range.mpr hi) (List.mem_range.mpr hj) heq

/-- The blocks of a directory and its memory map. -/
def DirectoryBlocks.blocks (D : DirectoryBlocks) (chunk : Nat) : List Nat :=
  chunk :: (tablesBelow D.tables 1024 ++ [D.directory])

theorem DirectoryBlocks.mem_blocks {p : Nat} :
    p ∈ D.blocks chunk ↔ p = chunk ∨ p = D.directory ∨ ∃ i, i < 1024 ∧ D.tables i = p := by
  unfold DirectoryBlocks.blocks
  simp only [List.mem_cons, List.mem_append, mem_tablesBelow, List.not_mem_nil, or_false]
  exact or_congr Iff.rfl or_comm

attribute [local irreducible] tablesBelow

theorem Contract.isPage {p : Nat} (h : C.Valid r.heap) (hp : C.pages r p ≠ 0) : IsPage p := by
  obtain ⟨halign, _, hend⟩ := C.placed h hp
  have hpages : 1 ≤ C.live r.heap p := Nat.one_le_iff_ne_zero.mpr hp
  unfold IsPage
  simp only [heapBlockSize, heapBaseAddress, heapMaxHeapSize, pagingPageSize] at *
  omega

/-- The first page of a live block. -/
theorem Contract.holds_page {p b : Nat} (hp : C.pages r p ≠ 0) (h1 : p ≤ b) (h2 : b < p + pagingPageSize) :
    (C.block r p).Holds b := by
  have hpages : 1 ≤ C.live r.heap p := Nat.one_le_iff_ne_zero.mpr hp
  unfold Contract.block
  rw [Extent.holds_mk]
  simp only [heapBlockSize, pagingPageSize] at *
  omega

/-! ### Making a directory -/

theorem generated_congr (directory flags : Nat) {tables tables' : Nat → Nat} (mem : Memory) {n : Nat}
    (h : ∀ i, i < n → tables' i = tables i) :
    generated directory flags tables' mem n = generated directory flags tables mem n := by
  induction n with
  | zero => rfl
  | succ n ih =>
    simp only [generated]
    rw [ih fun i hi => h i (by omega), h n (by omega)]

/-- The loop over the directory's entries takes a block for each table. -/
theorem genTables_spec {directory flags : Nat} (h : Taken C r₀ r [directory]) {n : Nat} (hn : n ≤ 1024) :
    Ensures (genTables A directory flags n) (fun offset r' =>
      offset = s32 (n * (pagingTotalEntriesPerTable * pagingPageSize)) ∧
      ∃ tables, Taken C r₀ r' (tablesBelow tables n ++ [directory]) ∧
        r'.mem = generated directory flags tables r.mem n) r := by
  induction n with
  | zero =>
    refine ⟨rfl, fun _ => 0, ?_, rfl⟩
    rw [tablesBelow_zero]
    exact h
  | succ n ih =>
    refine (ih (by omega)).bind fun offset r₁ => ?_
    rintro ⟨rfl, tables, htaken, hmem⟩
    refine (htaken.kzalloc _).bind fun entry r₂ hentry => ?_
    rw [wp_bind, wp_when]
    refine ⟨fun _ => trivial, fun hne => ?_⟩
    obtain ⟨hnull, _⟩ | ⟨_, htaken₂, _, hzero⟩ := hentry
    · exact absurd hnull hne
    -- both writes stay in blocks acquired here
    have hdir := (htaken₂.fresh directory (by simp)).2
    have hent := (htaken₂.fresh entry (by simp)).2
    let filled := fillTable entry (s32 (n * (pagingTotalEntriesPerTable * pagingPageSize))) flags r₂.mem
      pagingTotalEntriesPerTable
    let stored := write32 filled (directory + 4 * n) (entry ||| flags ||| pagingMasksIsWritable)
    have hwrite : Taken C r₀ {r₂ with mem := stored} (entry :: (tablesBelow tables n ++ [directory])) := by
      refine htaken₂.write fun b hb => ?_
      by_cases hd : directory + 4 * n ≤ b ∧ b < directory + 4 * n + 4
      · exact ⟨directory, by simp, Contract.holds_page hdir (by omega) (by simp only [pagingPageSize]; omega)⟩
      · refine ⟨entry, by simp, ?_⟩
        by_contra hout
        refine hb ((write32_apart _ _ (by omega)).trans (sameOutside_fillTable _ _ _ _ _ b fun hheld => hout ?_))
        rw [Extent.holds_mk] at hheld
        refine Contract.holds_page hent hheld.1 ?_
        simp only [pagingTotalEntriesPerTable, pagingPageSize] at *
        omega
    have htables : ∀ i, i < n → Function.update tables n entry i = tables i := fun i hi =>
      Function.update_of_ne (by omega) ..
    refine ⟨?_, Function.update tables n entry, hwrite.perm ?_, ?_⟩
    · rw [u32OfInt_s32, Nat.add_mul n 1, Nat.one_mul]
      unfold s32 u32
      rw [Nat.mod_add_mod]
    · rw [tablesBelow_succ, tablesBelow_congr htables, Function.update_self, List.append_assoc]
      exact List.perm_middle.symm
    · show stored = _
      simp only [generated, Function.update_self, generated_congr directory flags r.mem htables, ← hmem]
      simp only [stored, filled, hzero]
      rfl

/-- The blocks a generation has taken, as a directory. -/
theorem directoryOfTaken {directory : Nat} {tables : Nat → Nat}
    (h : Taken C r₀ r (tablesBelow tables 1024 ++ [directory])) :
    ∃ D : DirectoryBlocks, D.directory = directory ∧ D.tables = tables := by
  obtain ⟨hnodup, _, hdisjoint⟩ := List.nodup_append.mp h.nodup
  have hmem : ∀ i, i < 1024 → tables i ∈ tablesBelow tables 1024 := fun i hi => mem_tablesBelow.mpr ⟨i, hi, rfl⟩
  refine ⟨⟨directory, tables, ?_, fun i hi => ?_, fun i hi heq => ?_, fun i j hi hj heq => ?_⟩, rfl, rfl⟩
  · exact C.isPage h.valid (h.fresh directory (by simp)).2
  · exact C.isPage h.valid (h.fresh _ (List.mem_append_left _ (hmem i hi))).2
  · exact hdisjoint _ (hmem i hi) directory (by simp) heq
  · exact tablesBelow_inj hnodup hi hj heq

attribute [local irreducible] genTables

/-- **A generated directory is the identity**, in blocks of its own. -/
theorem genPaging4gb_spec (h : C.Valid r.heap) {flags : Nat} (hflags : flags < 2 ^ 8) (hpresent : flags % 2 = 1) :
    Ensures (genPaging4gb A flags) (fun chunk r' => ∃ D, Taken C r r' (D.blocks chunk) ∧ ChunkOf D chunk r'.mem ∧
      Tables D (identityEntry flags) r'.mem) r := by
  unfold genPaging4gb
  refine ((Taken.refl h).kzalloc _).bind fun directory r₁ hdir => ?_
  rw [wp_bind, wp_when]
  refine ⟨fun _ => trivial, fun hne => ?_⟩
  obtain ⟨hnull, _⟩ | ⟨_, htaken₁, _, _⟩ := hdir
  · exact absurd hnull hne
  refine (genTables_spec htaken₁ (Nat.le_refl 1024)).bind fun _ r₂ => ?_
  rintro ⟨_, tables, htaken₂, hmem⟩
  obtain ⟨D, rfl, rfl⟩ := directoryOfTaken htaken₂
  have hblock : ∀ p, p = D.directory ∨ (∃ i, i < 1024 ∧ D.tables i = p) → C.pages r₂ p ≠ 0 := by
    rintro p (rfl | ⟨i, hi, rfl⟩)
    · exact (htaken₂.fresh _ (by simp)).2
    · exact (htaken₂.fresh _ (List.mem_append_left _ (mem_tablesBelow.mpr ⟨i, hi, rfl⟩))).2
  refine ((Taken.refl htaken₂.valid).kzalloc 4).bind fun chunk r₃ hchunk => ?_
  rw [wp_bind, wp_when]
  refine ⟨fun _ => trivial, fun hne => ?_⟩
  obtain ⟨hnull, _⟩ | ⟨_, htaken₃, _, _⟩ := hchunk
  · exact absurd hnull hne
  have hlive := htaken₃.fresh chunk (List.mem_singleton_self _)
  have hwrite : Taken C r₂ {r₃ with mem := write32 r₃.mem chunk D.directory} [chunk] := by
    refine htaken₃.write fun b hb => ⟨chunk, List.mem_singleton_self _, ?_⟩
    by_contra hout
    refine hb (write32_apart _ _ ?_)
    by_contra hin
    exact hout (Contract.holds_page hlive.2 (by omega) (by simp only [pagingPageSize]; omega))
  refine ⟨D, htaken₂.trans hwrite, ⟨?_, ?_⟩, ?_⟩
  · refine read32_write32 _ _ ?_
    have := D.directory_page.2
    simp only [pagingPageSize] at this
    omega
  · rintro b h1 h2 ⟨i, hi, hheld⟩
    have htable := hblock _ (.inr ⟨i, hi, rfl⟩)
    rw [Extent.holds_mk] at hheld
    refine Contract.blocks_apart htaken₃.valid hlive.2 (htaken₃.live htable) (fun heq => ?_) b
      (Contract.holds_page hlive.2 h1 (by simp only [pagingPageSize]; omega))
      (Contract.holds_page (htaken₃.live htable) hheld.1 hheld.2)
    exact htable (heq ▸ hlive.1)
  · have hsame : ∀ p b, (p = D.directory ∨ ∃ i, i < 1024 ∧ D.tables i = p) →
        Extent.Holds ⟨p, pagingPageSize⟩ b → write32 r₃.mem chunk D.directory b = r₂.mem b := by
      intro p b hp hb
      rw [Extent.holds_mk] at hb
      exact hwrite.same p b (hblock p hp) (Contract.holds_page (hblock p hp) hb.1 hb.2)
    refine (tables_generated r₁.mem hflags hpresent).congr (fun b hb => ?_) ?_
    · rw [← hmem]
      exact hsame _ b (.inl rfl) hb
    · rintro b ⟨i, hi, hb⟩
      rw [← hmem]
      exact hsame _ b (.inr ⟨i, hi, rfl⟩) hb

/-! ### A directory in use -/

/-- A directory in live blocks. -/
structure DirectoryLive (C : Contract A) (r : Ram H) (D : DirectoryBlocks) (chunk : Nat) : Prop where
  chunkOf : ChunkOf D chunk r.mem
  tables : ∃ entry, Tables D entry r.mem
  live : ∀ p ∈ D.blocks chunk, C.pages r p ≠ 0
  nodup : (D.blocks chunk).Nodup

/-- No request is answered with a byte of the directory, its tables or its memory map. -/
structure DirectoryInUse (C : Contract A) (r : Ram H) (D : DirectoryBlocks) (chunk : Nat) : Prop where
  chunkOf : ChunkOf D chunk r.mem
  chunk : ∀ b, chunk ≤ b → b < chunk + 4 → C.InUse r b
  directory : ∀ b, Extent.Holds ⟨D.directory, pagingPageSize⟩ b → C.InUse r b
  tables : ∀ b, D.InTables b → C.InUse r b

theorem DirectoryLive.inUse (h : DirectoryLive C r D chunk) : DirectoryInUse C r D chunk := by
  have hpage : ∀ p ∈ D.blocks chunk, ∀ b, p ≤ b → b < p + pagingPageSize → C.InUse r b := fun p hp b h1 h2 =>
    .inr ⟨p, h.live p hp, Contract.holds_page (h.live p hp) h1 h2⟩
  refine ⟨h.chunkOf, fun b h1 h2 => ?_, fun b hb => ?_, ?_⟩
  · exact hpage chunk (DirectoryBlocks.mem_blocks.mpr (.inl rfl)) b h1 (by simp only [pagingPageSize]; omega)
  · rw [Extent.holds_mk] at hb
    exact hpage _ (DirectoryBlocks.mem_blocks.mpr (.inr (.inl rfl))) b hb.1 hb.2
  · rintro b ⟨i, hi, hb⟩
    rw [Extent.holds_mk] at hb
    exact hpage _ (DirectoryBlocks.mem_blocks.mpr (.inr (.inr ⟨i, hi, rfl⟩))) b hb.1 hb.2

/-- Mapping calls leave it in use. -/
theorem DirectoryInUse.sameElsewhere {m : Memory} (h : DirectoryInUse C r D chunk) (hm : D.SameElsewhere r.mem m) :
    DirectoryInUse C {r with mem := m} D chunk :=
  ⟨h.chunkOf.congr hm, h.chunk, h.directory, h.tables⟩

/-- So does kernel code that keeps what is in use. -/
theorem DirectoryInUse.taken {xs : List Nat} (h : DirectoryInUse C r₀ D chunk) (ht : Taken C r₀ r xs) :
    DirectoryInUse C r D chunk :=
  ⟨⟨(read32_congr fun b h1 h2 => ht.inUse (h.chunk b h1 h2)).trans h.chunkOf.directory, h.chunkOf.outside⟩,
    fun b h1 h2 => ht.still_inUse (h.chunk b h1 h2), fun b hb => ht.still_inUse (h.directory b hb),
    fun b hb => ht.still_inUse (h.tables b hb)⟩

theorem DirectoryInUse.tables_taken {xs : List Nat} {entry : Nat → Nat} (h : DirectoryInUse C r₀ D chunk)
    (ht : Taken C r₀ r xs) (htables : Tables D entry r₀.mem) : Tables D entry r.mem :=
  htables.congr (fun b hb => ht.inUse (h.directory b hb)) fun b hb => ht.inUse (h.tables b hb)

/-! ### Freeing a directory -/

theorem freeTables_spec (hvalid : C.Valid r.heap) (h : DirectoryLive C r D chunk) {n : Nat} (hn : n ≤ 1024) :
    wp (freeTables A chunk n) (fun _ r' => Freed C r r' (tablesBelow D.tables n)) (fun _ => False) r := by
  induction n with
  | zero =>
    rw [tablesBelow_zero]
    exact Freed.refl hvalid
  | succ n ih =>
    refine wp.bind (ih (by omega)) fun _ r₁ hfreed => ?_
    obtain ⟨entry, htables⟩ := h.tables
    have hword : read32 r₁.mem (read32 r₁.mem chunk + 4 * n) &&& 0xFFFFF000 = D.tables n := by
      rw [hfreed.mem, h.chunkOf.directory]
      exact (htables.table (by omega)).1
    -- table `n` is none of those released before it
    have hlive : C.pages r₁ (D.tables n) ≠ 0 := by
      rw [hfreed.kept _ fun hmem => ?_]
      · exact h.live _ (DirectoryBlocks.mem_blocks.mpr (.inr (.inr ⟨n, by omega, rfl⟩)))
      · obtain ⟨i, hi, heq⟩ := mem_tablesBelow.mp hmem
        have := D.tables_inj i n (by omega) (by omega) heq
        omega
    have hlast := freed_kfree hfreed.valid hlive
    rw [tablesBelow_succ]
    show Freed C r (released A (read32 r₁.mem (read32 r₁.mem chunk + 4 * n) &&& 0xFFFFF000) r₁) _
    rw [hword]
    exact hfreed.trans hlast

attribute [local irreducible] freeTables

/-- **A directory is released completely.** -/
theorem pagingFree4gb_spec (hvalid : C.Valid r.heap) (h : DirectoryLive C r D chunk) :
    wp (pagingFree4gb A chunk) (fun _ r' => Freed C r r' (D.blocks chunk)) (fun _ => False) r := by
  unfold pagingFree4gb
  refine wp.bind (freeTables_spec hvalid h (Nat.le_refl 1024)) fun _ r₁ hfreed => ?_
  obtain ⟨hchunk, hnodup⟩ := List.nodup_cons.mp h.nodup
  obtain ⟨_, _, hdisjoint⟩ := List.nodup_append.mp hnodup
  have hdirLive : C.pages r₁ D.directory ≠ 0 := by
    rw [hfreed.kept _ fun hmem => hdisjoint _ hmem D.directory (List.mem_singleton_self _) rfl]
    exact h.live _ (DirectoryBlocks.mem_blocks.mpr (.inr (.inl rfl)))
  have hdirectory := hfreed.trans (freed_kfree hfreed.valid hdirLive)
  have hchunkLive : C.pages (released A D.directory r₁) chunk ≠ 0 := by
    rw [hdirectory.kept _ hchunk]
    exact h.live _ (DirectoryBlocks.mem_blocks.mpr (.inl rfl))
  have hall := hdirectory.trans (freed_kfree hdirectory.valid hchunkLive)
  have hread : read32 r₁.mem chunk = D.directory := by
    rw [hfreed.mem]
    exact h.chunkOf.directory
  show Freed C r (released A chunk (released A (read32 r₁.mem chunk) r₁)) _
  rw [hread]
  exact hall.perm (List.perm_append_singleton _ _)

end BasicOS

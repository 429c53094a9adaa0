import BasicOS.Fs.File

/-! What opening and closing a file takes from the heap.

Between two states of memory a lookup, an open and a close lose nothing that was there
before (`Taken`). An open file holds three blocks, its `FileDescriptor.blocks`; closing it
gives exactly these back (`fclose_spec`). What a lookup took besides is never released. -/
namespace BasicOS
open Lib Program

variable {H : Type} {A : Allocator H} {C : Contract A} {r₀ r : Ram H} {xs : List Nat}

/-! ### Reading -/

theorem length_diskstreamerRead (disk : Memory) {pos : Nat} (total : Nat) (hpos : pos < 2 ^ 32) :
    (diskstreamerRead disk pos total).1.length = total := by
  rw [diskstreamerRead_eq disk total hpos]
  simp only [streamBytes, List.length_map, List.length_range]

theorem length_fat16ReadInternalFrom (disk : Memory) (priv : FatPrivate) (cluster fuel : Nat) (offset : Int)
    (total : Nat) : (fat16ReadInternalFrom disk priv cluster fuel offset total).2.length ≤ total := by
  induction fuel generalizing offset total with
  | zero => exact Nat.zero_le _
  | succ fuel ih =>
    unfold fat16ReadInternalFrom
    split
    · exact Nat.zero_le _
    · simp only
      split
      · exact Nat.zero_le _
      · simp only [List.length_append, length_diskstreamerRead disk _ (u32_lt _)]
        generalize hread : (if total > sizeOfClusterBytes priv then sizeOfClusterBytes priv else total) = n
        have hn : n ≤ total := by
          rw [← hread]
          split <;> omega
        have := ih (s32 (u32OfInt offset + n)) (total - n)
        omega

theorem length_fat16ReadInternal (disk : Memory) (priv : FatPrivate) (cluster : Nat) (offset : Int) (total : Nat) :
    (fat16ReadInternal disk priv cluster offset total).2.length ≤ total :=
  length_fat16ReadInternalFrom disk priv cluster total offset total

/-- A read writes no more than was asked for. -/
theorem length_fat16Read_one (disk : Memory) (priv : FatPrivate) (desc : FatFileDescriptor) (size : Nat) :
    (fat16Read disk priv desc size 1).2.length ≤ size := by
  have h := length_fat16ReadInternal disk priv (fat16GetFirstCluster desc.item) (s32 desc.pos) size
  unfold fat16Read fat16ReadBlocks fat16ReadBlocks
  generalize fat16ReadInternal disk priv (fat16GetFirstCluster desc.item) (s32 desc.pos) size = out at h
  obtain ⟨res, bytes⟩ := out
  by_cases hres : res < 0
  · simpa [hres] using h
  · simpa [hres] using h

/-- Storing bytes in an acquired block that has room for them. -/
theorem Taken.store {p : Nat} {bytes : List UInt8} (h : Taken C r₀ r xs) (hp : p ∈ xs)
    (hroom : bytes.length ≤ C.pages r p * heapBlockSize) : Taken C r₀ {r with mem := store r.mem p bytes} xs := by
  refine h.write fun b hb => ⟨p, hp, ?_⟩
  by_contra hout
  refine hb (sameOutside_store _ _ _ b fun hheld => hout ?_)
  unfold Contract.block
  rw [Extent.holds_mk] at hheld ⊢
  omega

/-! ### Items -/

theorem fat16LoadFatDirectory_spec (h : Taken C r₀ r xs) (disk : Memory) (priv : FatPrivate)
    (item : FatDirectoryItem) :
    Ensures (fat16LoadFatDirectory A disk priv item) (fun _ r' => Taken C r₀ r' xs) r := by
  unfold fat16LoadFatDirectory
  refine (h.kzalloc_nonNull _).bind fun directory r₁ => ?_
  rintro ⟨h₁, _⟩
  split
  · exact h₁.drop
  simp only
  split
  · trivial
  · refine (h₁.kzalloc _).bind fun items r₂ hitems => ?_
    split
    · rcases hitems with ⟨_, h₂⟩ | ⟨hne, _⟩
      · exact h₂.kfree_nonNull
      · contradiction
    · rcases hitems with ⟨hnull, _⟩ | ⟨_, h₂, hroom, _⟩
      · contradiction
      have h₃ := h₂.store (List.mem_cons_self ..)
        (Nat.le_trans (length_fat16ReadInternal disk priv (fat16GetFirstCluster item) 0 _) hroom)
      show wp (_ >>= _) _ _ _
      rw [wp_bind, wp_modify, wp_bind, wp_when]
      refine ⟨fun _ => ?_, fun _ => h₃.tail.drop⟩
      exact h₃.kfree.kfree_nonNull

/-- An item of a volume, with the copy of its record in memory taken for it. -/
theorem fat16NewFatItem_spec (h : Taken C r₀ r xs) (disk : Memory) (priv : FatPrivate) (record : FatDirectoryItem) :
    Ensures (fat16NewFatItemForDirectoryItem A disk priv record) (fun found r' =>
      match found with
      | none => Taken C r₀ r' xs
      | some item => item.type = fatItemTypeFile ∧ item.record = record ∧
        Taken C r₀ r' (nonNull item.item ++ xs)) r := by
  unfold fat16NewFatItemForDirectoryItem
  refine (h.kzalloc_nonNull _).bind fun fItem r₁ => ?_
  rintro ⟨h₁, _⟩
  split
  · exact h₁.drop
  have hdir : Ensures (when (record.attributes &&& fatMasksFileSubdirectory ≠ 0) do
      let _ ← fat16LoadFatDirectory A disk priv record) (fun _ r' => Taken C r₀ r' xs) r₁ := by
    unfold Ensures
    rw [wp_when]
    exact ⟨fun _ => (fat16LoadFatDirectory_spec h₁.drop disk priv record).bind fun _ _ h₂ => h₂, fun _ => h₁.drop⟩
  refine hdir.bind fun _ r₂ h₂ => ?_
  refine (h₂.kzalloc_nonNull _).bind fun copy r₃ => ?_
  rintro ⟨h₃, _⟩
  exact ⟨rfl, rfl, h₃⟩

/-- The root directory has an item of that name. -/
structure Named (priv : FatPrivate) (name : List UInt8) (record : FatDirectoryItem) : Prop where
  found : ∃ i full, i < priv.rootDirectory.total ∧ priv.rootDirectory.item[i]? = some record ∧
    fat16GetFullRelativeFilename priv.rootDirectory.item i = some full ∧ istrncmp full name fsMaxPathLen = 0

theorem fat16FindItem_spec (h : Taken C r₀ r xs) (disk : Memory) (priv : FatPrivate) (name : List UInt8) {n : Nat}
    (hn : n ≤ priv.rootDirectory.total) :
    Ensures (fat16FindItem A disk priv priv.rootDirectory name n) (fun found r' =>
      match found with
      | none => Taken C r₀ r' xs
      | some item => item.type = fatItemTypeFile ∧ Named priv name item.record ∧
        Taken C r₀ r' (nonNull item.item ++ xs)) r := by
  induction n with
  | zero => exact h
  | succ n ih =>
    refine (ih (by omega)).bind fun found r₁ h₁ => ?_
    split
    · rename_i full record hfull hrecord
      split
      · rename_i hname
        have h₁' : Taken C r₀ r₁ xs := by
          cases found with
          | none => exact h₁
          | some item => exact h₁.2.2.drop
        refine (fat16NewFatItem_spec h₁' disk priv record).mono fun found' r₂ h₂ => ?_
        cases found' with
        | none => exact h₂
        | some item => exact ⟨h₂.1, ⟨n, full, by omega, by rw [h₂.2.1]; exact hrecord, hfull, hname⟩, h₂.2.2⟩
      · exact h₁
    · trivial

theorem fat16GetDirectoryEntry_spec (h : Taken C r₀ r xs) (disk : Memory) (priv : FatPrivate) (path : PathPart)
    (next : List PathPart) :
    Ensures (fat16GetDirectoryEntry A disk priv path next) (fun found r' =>
      match found with
      | none => Taken C r₀ r' xs
      | some item => item.type = fatItemTypeFile ∧ Named priv path.name item.record ∧
        Taken C r₀ r' (nonNull item.item ++ xs)) r := by
  unfold fat16GetDirectoryEntry fat16FindItemInDirectory
  refine (fat16FindItem_spec h disk priv path.name (Nat.le_refl _)).bind fun found r₁ h₁ => ?_
  split
  · exact h₁
  · exact h₁
  · split
    · exact h₁.2.2.drop
    · trivial

/-! ### Open files -/

/-- The blocks of an open file that closing it frees. -/
def OpenFile.blocks (file : OpenFile) : List Nat := nonNull file.item.item ++ [file.addr]

/-- The item a path names on the volume. -/
structure Volume.Names (vol : Volume) (filename : List UInt8) (record : FatDirectoryItem) : Prop where
  named : ∃ priv, vol.mounted = some priv ∧ Named priv (nextPart (filename.drop 3)).1 record

theorem fat16Open_spec (h : Taken C r₀ r xs) (disk : Memory) (priv : FatPrivate) (path : PathPart)
    (next : List PathPart) (mode : FileMode) :
    Ensures (fat16Open A disk priv path next mode) (fun res r' =>
      match res with
      | .error _ => Taken C r₀ r' xs
      | .ok file => file.item.type = fatItemTypeFile ∧ file.pos = 0 ∧ Named priv path.name file.item.record ∧
        Taken C r₀ r' (file.blocks ++ xs)) r := by
  unfold fat16Open
  split
  · exact h
  refine (h.kzalloc _).bind fun descriptor r₁ hdesc => ?_
  split
  · rcases hdesc with ⟨_, h₁⟩ | ⟨hne, _⟩
    · exact h₁
    · contradiction
  rcases hdesc with ⟨hnull, _⟩ | ⟨_, h₁, _⟩
  · contradiction
  refine (fat16GetDirectoryEntry_spec h₁ disk priv path next).bind fun found r₂ h₂ => ?_
  cases found with
  | none => exact h₂.tail
  | some item =>
    refine ⟨h₂.1, rfl, h₂.2.1, ?_⟩
    show Taken C r₀ r₂ (nonNull item.item ++ [descriptor] ++ xs)
    rw [List.append_assoc]
    exact h₂.2.2

theorem openPath_spec (h : Taken C r₀ r xs) (vol : Volume) (filename : List UInt8) (root : PathRoot)
    (modeStr : List UInt8) (hroot : ∀ p next, root.parts = p :: next → p.name = (nextPart (filename.drop 3)).1) :
    Ensures (openPath A vol (some root) modeStr) (fun res r' =>
      match res with
      | .error _ => Taken C r₀ r' xs
      | .ok file => file.item.type = fatItemTypeFile ∧ file.pos = 0 ∧ vol.Names filename file.item.record ∧
        Taken C r₀ r' (file.blocks ++ xs)) r := by
  obtain ⟨addr, drive, parts⟩ := root
  cases parts with
  | nil => exact h
  | cons p next =>
    unfold openPath
    simp only
    split
    · exact h
    split
    · exact h
    · rename_i priv hpriv
      split
      · exact h
      refine (fat16Open_spec h vol.disk priv p next _).mono fun res r' h' => ?_
      cases res with
      | error e => exact h'
      | ok file =>
        refine ⟨h'.1, h'.2.1, ⟨priv, hpriv, ?_⟩, h'.2.2.2⟩
        rw [← hroot p next rfl]
        exact h'.2.2.1

/-! ### Descriptors -/

/-- The blocks of a descriptor that `fclose` frees. -/
def FileDescriptor.blocks (desc : FileDescriptor) : List Nat := desc.addr :: desc.priv.blocks

/-- A descriptor `fopen` made for the file a path names. -/
structure Opened (vol : Volume) (filename : List UInt8) (i : Nat) (desc : FileDescriptor) : Prop where
  index : i < maxFileDescriptorsActive
  id : desc.id = i + 1
  type : desc.priv.item.type = fatItemTypeFile
  pos : desc.priv.pos = 0
  names : vol.Names filename desc.priv.item.record

variable {s : Files H}

theorem Files.freeIndex_some {i : Nat} (h : s.freeIndex = some i) :
    i < maxFileDescriptorsActive ∧ s.fileDescriptors i = none := by
  unfold Files.freeIndex at h
  exact ⟨List.mem_range.mp (List.mem_of_find?_eq_some h), by simpa using List.find?_some h⟩

/-- A path that is turned away changes nothing. For any other a block is taken for the
root of the path and never released: then the file is not opened and the table stays, or
it takes its three blocks and one free entry. -/
theorem fopen_root (h : Taken C r₀ s.ram xs) (vol : Volume) (filename modeStr : List UInt8) :
    Ensures (fopen A vol filename modeStr) (fun fd s' =>
      (¬ PathAccepted filename ∧ fd = 0 ∧ s' = s) ∨
      PathAccepted filename ∧ ∃ root,
        (fd = 0 ∧ s'.fileDescriptors = s.fileDescriptors ∧ Taken C r₀ s'.ram (root :: xs)) ∨
        ∃ i desc, fd = i + 1 ∧ Opened vol filename i desc ∧ s.fileDescriptors i = none ∧
          s'.fileDescriptors = Function.update s.fileDescriptors i (some desc) ∧
          Taken C r₀ s'.ram (desc.blocks ++ root :: xs)) s := by
  unfold fopen inRam
  rw [Ensures, wp_bind, wp_zoom]
  refine (pparserParse_spec h filename).mono fun rootPath r₁ h₁ => ?_
  cases rootPath with
  | none =>
    obtain ⟨hrefused, rfl⟩ := h₁
    exact .inl ⟨hrefused, rfl, rfl⟩
  | some root =>
    obtain ⟨haccepted, h₁, hhead⟩ := h₁
    rw [wp_bind, wp_zoom]
    refine (openPath_spec h₁ vol filename root modeStr hhead).mono fun res r₂ h₂ => ?_
    cases res with
    | error e => exact .inr ⟨haccepted, root.addr, .inl ⟨rfl, rfl, h₂⟩⟩
    | ok file =>
      obtain ⟨htype, hpos, hnames, h₂⟩ := h₂
      simp only
      split
      · exact .inr ⟨haccepted, root.addr, .inl ⟨rfl, rfl, h₂.drop⟩⟩
      unfold fileNewDescriptor
      rw [wp_bind, wp_bind, wp_get]
      split
      · rw [wp_pure, if_pos (by decide)]
        exact .inr ⟨haccepted, root.addr, .inl ⟨rfl, rfl, h₂.drop⟩⟩
      · rename_i i hi
        obtain ⟨hindex, hfree⟩ := Files.freeIndex_some hi
        unfold inRam
        rw [wp_bind, wp_zoom]
        refine (h₂.kzalloc _).mono fun desc r₃ hdesc => ?_
        rw [wp_bind, wp_when]
        refine ⟨fun _ => trivial, fun hne => ?_⟩
        rcases hdesc with ⟨hnull, _⟩ | ⟨_, h₃, _⟩
        · exact absurd hnull hne
        rw [wp_bind, wp_modify, wp_pure, if_neg (by omega)]
        exact .inr ⟨haccepted, root.addr,
          .inr ⟨i, ⟨desc, i + 1, file⟩, rfl, ⟨hindex, rfl, htype, hpos, hnames⟩, hfree, rfl, h₃⟩⟩

/-- **Opening a file** takes its three blocks and one free entry of the table, or leaves the
table as it was. -/
theorem fopen_spec (h : Taken C r₀ s.ram xs) (vol : Volume) (filename modeStr : List UInt8) :
    Ensures (fopen A vol filename modeStr) (fun fd s' =>
      (fd = 0 ∧ s'.fileDescriptors = s.fileDescriptors ∧ Taken C r₀ s'.ram xs) ∨
      ∃ i desc, fd = i + 1 ∧ Opened vol filename i desc ∧ s.fileDescriptors i = none ∧
        s'.fileDescriptors = Function.update s.fileDescriptors i (some desc) ∧
        Taken C r₀ s'.ram (desc.blocks ++ xs)) s := by
  refine (fopen_root h vol filename modeStr).mono fun fd s' => ?_
  rintro (⟨_, rfl, rfl⟩ | ⟨_, root, ⟨rfl, htable, htaken⟩ | ⟨i, desc, rfl, hopened, hfree, htable, htaken⟩⟩)
  · exact .inl ⟨rfl, rfl, h⟩
  · exact .inl ⟨rfl, htable, htaken.tail⟩
  · refine .inr ⟨i, desc, rfl, hopened, hfree, htable, Taken.tail (x := root) (htaken.perm ?_)⟩
    exact List.perm_middle

/-- `fclose` of a number that is no open descriptor. -/
theorem fclose_closed {fd : Int} (h : s.fileGetFd fd = none) : fclose A fd s = .ok (-eio, s) := by
  unfold fclose
  rw [bind_apply, get_apply]
  simp only [h]
  rfl

/-- What `fclose` releases. -/
theorem fclose_freed {fd : Int} {desc : FileDescriptor} (hfd : s.fileGetFd fd = some desc)
    (htype : desc.priv.item.type = fatItemTypeFile) (hvalid : C.Valid s.ram.heap)
    (hlive : ∀ b ∈ desc.blocks, C.pages s.ram b ≠ 0) (hnodup : desc.blocks.Nodup) :
    Ensures (fclose A fd) (fun _ s' => s'.fileDescriptors = Function.update s.fileDescriptors (desc.id - 1) none ∧
      Freed C s.ram s'.ram desc.blocks) s := by
  obtain ⟨hdesc, hfile⟩ := List.nodup_cons.mp hnodup
  obtain ⟨_, _, hitem⟩ := List.nodup_append.mp hfile
  have h₁ := freed_nonNull hvalid fun q hq => hlive q (List.mem_cons_of_mem _ (List.mem_append_left _ hq))
  have haddr : C.pages (released A desc.priv.item.item s.ram) desc.priv.addr ≠ 0 := by
    rw [h₁.kept _ fun hmem => hitem _ hmem _ (List.mem_singleton_self _) rfl]
    exact hlive _ (List.mem_cons_of_mem _ (List.mem_append_right _ (List.mem_singleton_self _)))
  have h₂ := h₁.trans (freed_kfree h₁.valid haddr)
  have hself : C.pages (released A desc.priv.addr (released A desc.priv.item.item s.ram)) desc.addr ≠ 0 := by
    rw [h₂.kept _ hdesc]
    exact hlive _ (List.mem_cons_self ..)
  have h₃ := h₂.trans (freed_kfree h₂.valid hself)
  unfold fclose
  rw [Ensures, wp_bind, wp_get]
  simp only [hfd]
  unfold fat16Close fat16FatItemFree inRam
  rw [htype, if_neg (by decide), if_pos rfl]
  exact ⟨rfl, h₃.perm (List.perm_append_singleton _ _)⟩

/-- **Closing a file** gives its three blocks back and frees its entry. -/
theorem fclose_spec {fd : Int} {desc : FileDescriptor} (hfd : s.fileGetFd fd = some desc)
    (htype : desc.priv.item.type = fatItemTypeFile) (h : Taken C r₀ s.ram (desc.blocks ++ xs)) :
    Ensures (fclose A fd) (fun _ s' => s'.fileDescriptors = Function.update s.fileDescriptors (desc.id - 1) none ∧
      s'.ram.mem = s.ram.mem ∧ Taken C r₀ s'.ram xs) s := by
  refine (fclose_freed hfd htype h.valid (fun b hb => (h.fresh b (List.mem_append_left xs hb)).2)
    (List.nodup_append.mp h.nodup).1).mono ?_
  rintro _ s' ⟨htable, hfreed⟩
  exact ⟨htable, hfreed.mem, h.freed hfreed⟩

end BasicOS

import BasicOS.Fs.Descriptors
import BasicOS.Fs.FileContents

/-! Looking a path up.

A directory is the root's area or a chain of clusters; its records are its slots up to the
end marker that are not deleted, and each has an 8.3 name. `Resolves` is what a path means:
a record for each part, in the directory of the record before.

`fat16_get_directory_entry` counts the records in use and then looks at that many slots,
deleted ones among them, compares a name that runs on behind a field without blanks, and
keeps the last match. It makes every item a file, so that no path of two parts or more is
found. `lookup_iff` says exactly for which root directories it answers, and answers right. -/
namespace BasicOS
open Lib Program

/-! ### Directories -/

inductive DirectoryArea where
  | root
  | chain (clusters : List Nat)

/-- Where the root directory starts on the disk. -/
def rootStart (disk : Memory) : Nat := rootDirSectorPos (fatHeader disk) * diskSectorSize

def recordsPerCluster (disk : Memory) : Nat := clusterSize disk / sizeofFatDirectoryItem

/-- Where slot `j` of a directory is on the disk. -/
def DirectoryArea.slot (disk : Memory) : DirectoryArea → Nat → Option Nat
  | .root, j =>
    if j < (fatHeader disk).rootDirectoryEntries then some (rootStart disk + j * sizeofFatDirectoryItem) else none
  | .chain clusters, j => (clusters[j / recordsPerCluster disk]?).map fun c =>
      clusterStart disk c + j % recordsPerCluster disk * sizeofFatDirectoryItem

/-- The record is in a slot before the end marker, and not deleted. -/
def DirectoryArea.Holds (disk : Memory) (d : DirectoryArea) (record : FatDirectoryItem) : Prop :=
  ∃ j pos, d.slot disk j = some pos ∧ record = fatDirectoryItemAt disk pos ∧ disk pos ≠ 0xE5 ∧
    ∀ i p, i ≤ j → d.slot disk i = some p → disk p ≠ 0x00

/-- The record is that of a subdirectory, and `d` is its area. -/
structure FatDirectoryItem.DirectoryAt (record : FatDirectoryItem) (disk : Memory) (d : DirectoryArea) : Prop where
  directory : record.attributes &&& fatMasksFileSubdirectory ≠ 0
  area : ∃ clusters, d = .chain clusters ∧ clusters.head? = some record.low16BitsFirstCluster ∧ FatChain disk clusters

/-! ### Names -/

/-- A field without the blanks behind it. -/
def trimBlanks (field : List UInt8) : List UInt8 := (field.reverse.dropWhile (· = 0x20)).reverse

/-- The 8.3 name. -/
def FatDirectoryItem.name (record : FatDirectoryItem) : List UInt8 :=
  if trimBlanks record.ext = [] then trimBlanks record.filename
  else trimBlanks record.filename ++ 0x2E :: trimBlanks record.ext

/-- Equal but for the case of letters. -/
def SameName (a b : List UInt8) : Prop := a.map tolower = b.map tolower

instance (a b : List UInt8) : Decidable (SameName a b) := by
  unfold SameName
  infer_instance

/-- The record a path leads to from a directory. -/
def DirectoryArea.Resolves (disk : Memory) (d : DirectoryArea) : List (List UInt8) → FatDirectoryItem → Prop
  | [], _ => False
  | [part], record => d.Holds disk record ∧ SameName record.name part
  | part :: next :: rest, record => ∃ r d', d.Holds disk r ∧ SameName r.name part ∧ r.DirectoryAt disk d' ∧
      DirectoryArea.Resolves disk d' (next :: rest) record

/-- What a lookup is to answer: a copy of the record the path leads to, or nothing if there is none. -/
def LookupRight (disk : Memory) (parts : List (List UInt8)) : Option FatItem → Prop
  | some item => item.item ≠ 0 ∧ DirectoryArea.root.Resolves disk parts item.record
  | none => ∀ record, ¬ DirectoryArea.root.Resolves disk parts record

/-! ### The root directory -/

/-- A mounted volume of 512-byte sectors whose root directory 32-bit positions reach. -/
structure RootVolume (disk : Memory) (priv : FatPrivate) : Prop where
  mounted : fat16Resolve disk = some (.ok priv)
  sector : (fatHeader disk).bytesPerSector = diskSectorSize
  fits : rootStart disk + rootDirSize (fatHeader disk) ≤ 2 ^ 32

variable {disk : Memory} {priv : FatPrivate}

/-- What the driver took from the root directory. -/
theorem RootVolume.root (h : RootVolume disk priv) :
    fat16GetTotalItemsForDirectory disk (rootDirSectorPos (fatHeader disk)) = some priv.rootDirectory.total ∧
    priv.rootDirectory.item = (List.range (fatHeader disk).rootDirectoryEntries).map fun i =>
      fatDirectoryItemAt disk (fat16SectorToAbsolute (rootDirSectorPos
        (fatHeader disk)) + i * sizeofFatDirectoryItem) := by
  obtain ⟨total, htotal, hitems⟩ := Option.bind_eq_some_iff.mp (fat16Resolve_ok h.mounted).2.1
  rw [← Option.some_inj.mp hitems]
  have hle : fat16SectorToAbsolute (rootDirSectorPos (fatHeader disk)) ≤ rootStart disk := Nat.mod_le _ _
  exact ⟨htotal, rootItems_eq (Nat.le_trans (Nat.add_le_add_right hle _) h.fits)⟩

/-- The slots that are looked at lie before the end marker. -/
theorem fat16GetTotalItemsFrom_used {fuel pos i total : Nat}
    (h : fat16GetTotalItemsFrom disk fuel pos i = some total) :
    i ≤ total ∧ ∀ j, j < total - i → pos + j * sizeofFatDirectoryItem < 2 ^ 32 →
      disk (pos + j * sizeofFatDirectoryItem) ≠ 0x00 := by
  induction fuel generalizing pos i with
  | zero => cases h
  | succ fuel ih =>
    unfold fat16GetTotalItemsFrom at h
    simp only at h
    -- the slots behind the first, from the next position on
    have hnext : ∀ i', i' ≤ i + 1 → fat16GetTotalItemsFrom disk fuel
      (u32 (pos + sizeofFatDirectoryItem)) i' = some total →
        disk pos ≠ 0x00 → ∀ j, j < total - i → pos + j * sizeofFatDirectoryItem < 2 ^ 32 →
          disk (pos + j * sizeofFatDirectoryItem) ≠ 0x00 := by
      intro i' hi' hrest hpos j hj hlt
      cases j with
      | zero => simpa using hpos
      | succ j =>
        simp only [sizeofFatDirectoryItem] at *
        have hpos' : u32 (pos + 32) = pos + 32 := u32_of_lt (by omega)
        rw [hpos'] at hrest
        have := (ih hrest).2 j (by omega) (by omega)
        rwa [show pos + (j + 1) * 32 = pos + 32 + j * 32 by omega]
    split at h
    · cases h
      exact ⟨Nat.le_refl _, fun j hj => by omega⟩
    · rename_i hused
      split at h
      · exact ⟨(ih h).1, hnext i (Nat.le_succ i) h hused⟩
      · exact ⟨Nat.le_of_succ_le (ih h).1, hnext (i + 1) (Nat.le_refl _) h hused⟩

/-- Slot `i` of the items in memory is slot `i` of the root directory, and before the end marker. -/
theorem RootVolume.item (h : RootVolume disk priv) {i : Nat} {record : FatDirectoryItem}
    (hi : i < priv.rootDirectory.total) (hrecord : priv.rootDirectory.item[i]? = some record) :
    record = fatDirectoryItemAt disk (rootStart disk + i * sizeofFatDirectoryItem) ∧
      i < (fatHeader disk).rootDirectoryEntries ∧
      ∀ j, j ≤ i → disk (rootStart disk + j * sizeofFatDirectoryItem) ≠ 0x00 := by
  obtain ⟨htotal, hitems⟩ := h.root
  rw [hitems, List.getElem?_map] at hrecord
  obtain ⟨k, hk, rfl⟩ := Option.map_eq_some_iff.mp hrecord
  obtain ⟨hlt, rfl⟩ := List.getElem?_eq_some_iff.mp hk
  rw [List.length_range] at hlt
  rw [List.getElem_range]
  have hfits := h.fits
  unfold rootDirSize at hfits
  simp only [sizeofFatDirectoryItem] at *
  have hstart : fat16SectorToAbsolute (rootDirSectorPos (fatHeader disk)) = rootStart disk := by
    unfold fat16SectorToAbsolute
    refine u32_of_lt ?_
    show rootStart disk < 2 ^ 32
    omega
  unfold fat16GetTotalItemsForDirectory at htotal
  rw [hstart] at htotal ⊢
  exact ⟨rfl, hlt, fun j hj => (fat16GetTotalItemsFrom_used htotal).2 j (by omega)
    (by simp only [sizeofFatDirectoryItem]; omega)⟩

/-! ### What the driver compares -/

/-- The name the driver makes of slot `i` is the path's part for it. -/
def FatDirectory.MatchesAt (d : FatDirectory) (part : List UInt8) (i : Nat) : Prop :=
  ∃ full, fat16GetFullRelativeFilename d.item i = some full ∧ istrncmp full part fsMaxPathLen = 0

/-- Slot `i` is the last of the first `n` that match. -/
structure FatDirectory.LastMatch (d : FatDirectory) (part : List UInt8) (n i : Nat) : Prop where
  below : i < n
  at_i : d.MatchesAt part i
  last : ∀ j, i < j → j < n → ¬ d.MatchesAt part j

theorem FatDirectory.LastMatch.unique {d : FatDirectory} {part : List UInt8} {n i j : Nat} (hi : d.LastMatch part n i)
    (hj : d.LastMatch part n j) : i = j := by
  rcases Nat.lt_trichotomy i j with hlt | heq | hlt
  · exact absurd hj.at_i (hi.last j hlt hj.below)
  · exact heq
  · exact absurd hi.at_i (hj.last i hlt hi.below)

variable {H : Type} {A : Allocator H}

/-- Memory does not run out. -/
def NeverNull (A : Allocator H) : Prop := ∀ size h ptr h', A.kmalloc size h = some (ptr, h') → ptr ≠ 0

theorem NeverNull.kmalloc (hA : NeverNull A) (size : Nat) (r : Ram H) :
    Ensures (BasicOS.kmalloc A size) (fun ptr _ => ptr ≠ 0) r := by
  unfold Ensures wp BasicOS.kmalloc
  cases hk : A.kmalloc size r.heap with
  | none => trivial
  | some a => exact hA size r.heap a.1 a.2 hk

theorem NeverNull.kzalloc (hA : NeverNull A) (size : Nat) (r : Ram H) :
    Ensures (BasicOS.kzalloc A size) (fun ptr _ => ptr ≠ 0) r := by
  unfold BasicOS.kzalloc
  refine wp.bind (hA.kmalloc size r) fun ptr r' hne => ?_
  rw [if_neg hne]
  exact hne

theorem fat16NewFatItem_copy (hA : NeverNull A) (record : FatDirectoryItem) (r : Ram H) :
    Ensures (fat16NewFatItemForDirectoryItem A disk priv record) (fun found _ => ∃ item, found = some item ∧
      item.item ≠ 0 ∧ item.record = record ∧ item.type = fatItemTypeFile) r := by
  unfold fat16NewFatItemForDirectoryItem
  refine wp.bind (hA.kzalloc _ r) fun fItem r hitem => ?_
  rw [if_neg hitem]
  refine Ensures.after (fun _ r => ?_) r
  refine wp.bind (hA.kzalloc _ r) fun copy r hcopy => ?_
  exact ⟨_, rfl, hcopy, rfl, rfl⟩

/-- The search returns the last match. -/
theorem fat16FindItem_last (hA : NeverNull A) (disk : Memory) (priv : FatPrivate) (d : FatDirectory)
    (part : List UInt8) (n : Nat) (r : Ram H) :
    Ensures (fat16FindItem A disk priv d part n) (fun found _ =>
      match found with
      | none => ∀ i, i < n → ¬ d.MatchesAt part i
      | some item => item.item ≠ 0 ∧ item.type = fatItemTypeFile ∧
        ∃ i, d.LastMatch part n i ∧ d.item[i]? = some item.record) r := by
  induction n with
  | zero => exact fun i hi => absurd hi (Nat.not_lt_zero i)
  | succ n ih =>
    refine wp.bind ih fun found r hfound => ?_
    split
    · rename_i full record hfull hrecord
      split
      · rename_i hname
        refine (fat16NewFatItem_copy hA record r).mono ?_
        rintro found' _ ⟨item, rfl, hcopy, rfl, htype⟩
        exact ⟨hcopy, htype, n, ⟨Nat.lt_succ_self n, ⟨full, hfull, hname⟩, fun j h1 h2 => by omega⟩, hrecord⟩
      · rename_i hname
        have hn : ¬ d.MatchesAt part n := by
          rintro ⟨full', hfull', hname'⟩
          rw [hfull] at hfull'
          cases hfull'
          exact hname hname'
        cases found with
        | none =>
          intro i hi
          rcases Nat.lt_succ_iff_lt_or_eq.mp hi with hlt | rfl
          · exact hfound i hlt
          · exact hn
        | some item =>
          obtain ⟨hcopy, htype, i, hlast, hitem⟩ := hfound
          refine ⟨hcopy, htype, i, ⟨Nat.lt_succ_of_lt hlast.below, hlast.at_i, fun j h1 h2 => ?_⟩, hitem⟩
          rcases Nat.lt_succ_iff_lt_or_eq.mp h2 with hlt | rfl
          · exact hlast.last j h1 hlt
          · exact hn
    · trivial

/-! ### When there is an answer -/

/-- The directory of the record ends with a marker, where the driver counts its items. -/
def FatDirectoryItem.EndMarked (record : FatDirectoryItem) (disk : Memory) (priv : FatPrivate) : Prop :=
  ∃ total, fat16GetTotalItemsForDirectory disk (fat16ClusterToSector priv (fat16GetFirstCluster record)) = some total

/-- The names of the first `n` slots end inside the directory's memory and their buffer, and the directories among the
matches have an end marker. -/
structure FatDirectory.InBounds (d : FatDirectory) (disk : Memory) (priv : FatPrivate) (part : List UInt8) (n : Nat) :
    Prop where
  names : ∀ i, i < n → ∃ full, fat16GetFullRelativeFilename d.item i = some full
  marked : ∀ i record, i < n → d.MatchesAt part i → d.item[i]? = some record →
    record.attributes &&& fatMasksFileSubdirectory ≠ 0 → record.EndMarked disk priv

/-- A name that was written is that of a slot of the directory. -/
theorem relative_item {items : List FatDirectoryItem} {i : Nat} {full : List UInt8}
    (h : fat16GetFullRelativeFilename items i = some full) : ∃ record, items[i]? = some record := by
  by_contra hnone
  have hlen : items.length ≤ i := List.getElem?_eq_none_iff.mp (Option.eq_none_iff_forall_ne_some.mpr fun record hrecord =>
    hnone ⟨record, hrecord⟩)
  unfold fat16GetFullRelativeFilename at h
  rw [List.drop_eq_nil_of_le hlen] at h
  cases h

theorem kzalloc_granted (A : Allocator H) (size : Nat) (r : Ram H) :
    wp (BasicOS.kzalloc A size) (fun _ _ => True) (fun e => e = .heapOverrun) r := by
  unfold BasicOS.kzalloc
  have hmalloc : wp (BasicOS.kmalloc A size) (fun _ _ => True) (fun e => e = .heapOverrun) r := by
    unfold wp BasicOS.kmalloc
    cases A.kmalloc size r.heap with
    | none => rfl
    | some a => trivial
  refine wp.bind hmalloc fun ptr r' _ => ?_
  split
  · trivial
  · trivial

theorem fat16NewFatItem_marked (hA : NeverNull A) (record : FatDirectoryItem) (r : Ram H) :
    wp (fat16NewFatItemForDirectoryItem A disk priv record)
      (fun _ _ => record.attributes &&& fatMasksFileSubdirectory ≠ 0 → record.EndMarked disk priv)
      (fun e => e = .heapOverrun ∨ record.attributes &&& fatMasksFileSubdirectory ≠ 0 ∧ ¬ record.EndMarked disk priv) r := by
  have halloc : ∀ size (r : Ram H), wp (BasicOS.kzalloc A size) (fun ptr _ => ptr ≠ 0) (fun e => e = .heapOverrun ∨
      record.attributes &&& fatMasksFileSubdirectory ≠ 0 ∧ ¬ record.EndMarked disk priv) r := fun size r =>
    (wp.and (hA.kzalloc size r) (kzalloc_granted A size r)).mono (fun _ _ h => h.1) fun _ h => .inl h.2
  unfold fat16NewFatItemForDirectoryItem
  refine wp.bind (halloc _ r) fun fItem r hitem => ?_
  rw [if_neg hitem]
  have hload : wp (when (record.attributes &&& fatMasksFileSubdirectory ≠ 0) do
        let _ ← fat16LoadFatDirectory A disk priv record)
      (fun _ _ => record.attributes &&& fatMasksFileSubdirectory ≠ 0 → record.EndMarked disk priv)
      (fun e => e = .heapOverrun ∨ record.attributes &&& fatMasksFileSubdirectory ≠ 0 ∧ ¬ record.EndMarked disk priv) r := by
    rw [wp_when]
    refine ⟨fun hsub => ?_, fun hfile hsub => absurd hsub hfile⟩
    unfold fat16LoadFatDirectory
    refine wp.bind (wp.bind (halloc _ r) fun directory r hdirectory => ?_) fun _ _ h => h
    rw [if_neg hdirectory]
    dsimp only
    cases htotal : fat16GetTotalItemsForDirectory disk (fat16ClusterToSector priv (fat16GetFirstCluster record)) with
    | none =>
      refine .inr ⟨hsub, ?_⟩
      rintro ⟨total, hsome⟩
      rw [htotal] at hsome
      cases hsome
    | some total =>
      have hmarked : record.EndMarked disk priv := ⟨total, htotal⟩
      refine wp.bind (halloc _ r) fun items r hitems => ?_
      rw [if_neg hitems, wp_bind, wp_modify, wp_bind, wp_when]
      exact ⟨fun _ _ => hmarked, fun _ _ => hmarked⟩
  refine wp.bind hload fun _ r hmarked => ?_
  exact wp.bind (halloc _ r) fun copy r _ => hmarked

/-- The search of the first `n` slots comes to its end just when they are in bounds, if it gets its memory. -/
theorem fat16FindItem_inBounds (hA : NeverNull A) (disk : Memory) (priv : FatPrivate) (d : FatDirectory)
    (part : List UInt8) (n : Nat) (r : Ram H) :
    wp (fat16FindItem A disk priv d part n) (fun _ _ => d.InBounds disk priv part n)
      (fun e => e = .heapOverrun ∨ ¬ d.InBounds disk priv part n) r := by
  induction n with
  | zero => exact ⟨fun i hi => absurd hi (Nat.not_lt_zero i), fun i _ hi => absurd hi (Nat.not_lt_zero i)⟩
  | succ n ih =>
    have hbelow : d.InBounds disk priv part (n + 1) → d.InBounds disk priv part n := fun h =>
      ⟨fun i hi => h.names i (Nat.lt_succ_of_lt hi), fun i record hi => h.marked i record (Nat.lt_succ_of_lt hi)⟩
    -- what slot `n` adds
    have hnext : ∀ {full record}, fat16GetFullRelativeFilename d.item n = some full → d.item[n]? = some record →
        d.InBounds disk priv part n →
        (d.MatchesAt part n → record.attributes &&& fatMasksFileSubdirectory ≠ 0 → record.EndMarked disk priv) →
        d.InBounds disk priv part (n + 1) := by
      intro full record hfull hrecord h hmarked
      refine ⟨fun i hi => ?_, fun i record' hi hmatch hrecord' => ?_⟩
      · rcases Nat.lt_succ_iff_lt_or_eq.mp hi with hlt | rfl
        · exact h.names i hlt
        · exact ⟨full, hfull⟩
      · rcases Nat.lt_succ_iff_lt_or_eq.mp hi with hlt | rfl
        · exact h.marked i record' hlt hmatch hrecord'
        · obtain rfl : record = record' := Option.some_inj.mp (hrecord.symm.trans hrecord')
          exact hmarked hmatch
    refine wp.bind (ih.mono (fun _ _ h => h) fun e h => h.imp_right (mt hbelow)) fun found r h => ?_
    split
    · rename_i full record hfull hrecord
      split
      · rename_i hname
        refine (fat16NewFatItem_marked hA record r).mono (fun _ _ hmarked => hnext hfull hrecord h fun _ => hmarked)
          fun e he => he.imp_right fun hunmarked hbounds => hunmarked.2 ?_
        exact hbounds.marked n record (Nat.lt_succ_self n) ⟨full, hfull, hname⟩ hrecord hunmarked.1
      · rename_i hname
        refine hnext hfull hrecord h fun hmatch => ?_
        obtain ⟨full', hfull', hname'⟩ := hmatch
        rw [hfull] at hfull'
        cases hfull'
        exact absurd hname' hname
    · rename_i hnone
      refine .inr fun hbounds => ?_
      obtain ⟨full, hfull⟩ := hbounds.names n (Nat.lt_succ_self n)
      obtain ⟨record, hrecord⟩ := relative_item hfull
      exact hnone full record hfull hrecord

/-! ### When the answer is right -/

/-- Slot `j` has a record that is not deleted, and the part is its name. -/
def FatDirectory.NamesAt (d : FatDirectory) (part : List UInt8) (j : Nat) : Prop :=
  ∃ record, d.item[j]? = some record ∧ record.filename.head? ≠ some 0xE5 ∧ SameName record.name part

/-- A path of one part is served when a record of that name implies a match, and every match is a record of that name or
has one that matches behind it; a longer path when it leads nowhere. -/
def LookupServed (disk : Memory) (priv : FatPrivate) (part : List UInt8) : List (List UInt8) → Prop
  | [] =>
    (∀ record, DirectoryArea.root.Holds disk record → SameName record.name part →
      ∃ i, i < priv.rootDirectory.total ∧ priv.rootDirectory.MatchesAt part i) ∧
    ∀ i, i < priv.rootDirectory.total → priv.rootDirectory.MatchesAt part i → ∃ j, i ≤ j ∧
      j < priv.rootDirectory.total ∧ priv.rootDirectory.MatchesAt part j ∧ priv.rootDirectory.NamesAt part j
  | next => ∀ record, ¬ DirectoryArea.root.Resolves disk (part :: next) record

theorem filename_head (disk : Memory) (pos : Nat) : (fatDirectoryItemAt disk pos).filename.head? = some (disk pos) := rfl

/-- The item of slot `i` is held by the root directory unless it is deleted. -/
theorem RootVolume.holds_item (h : RootVolume disk priv) {i : Nat} {record : FatDirectoryItem}
    (hi : i < priv.rootDirectory.total) (hrecord : priv.rootDirectory.item[i]? = some record) :
    DirectoryArea.root.Holds disk record ↔ record.filename.head? ≠ some 0xE5 := by
  obtain ⟨rfl, hlt, hused⟩ := h.item hi hrecord
  constructor
  · rintro ⟨j, pos, _, heq, hlive, _⟩ hdeleted
    rw [heq, filename_head] at hdeleted
    exact hlive (Option.some_inj.mp hdeleted)
  · intro hlive
    refine ⟨i, _, if_pos hlt, rfl, fun hdeleted => hlive ?_, fun j p hj hp => ?_⟩
    · rw [filename_head, hdeleted]
    · have hslot : DirectoryArea.root.slot disk j = some (rootStart disk + j * sizeofFatDirectoryItem) :=
        if_pos (Nat.lt_of_le_of_lt hj hlt)
      rw [hslot] at hp
      cases hp
      exact hused j hj

/-- Without a match nothing is found, and that is right just when there is no record of the name. -/
theorem lookupServed_none {part : List UInt8}
    (h : ∀ i, i < priv.rootDirectory.total → ¬ priv.rootDirectory.MatchesAt part i) :
    LookupRight disk [part] none ↔ LookupServed disk priv part [] := by
  constructor
  · refine fun hright => ⟨fun record hheld hname => absurd ⟨hheld, hname⟩ (hright record), fun i hi hmatch => ?_⟩
    exact absurd hmatch (h i hi)
  · rintro ⟨hfound, _⟩ record ⟨hheld, hname⟩
    obtain ⟨i, hi, hmatch⟩ := hfound record hheld hname
    exact h i hi hmatch

/-- What is found is the last match. -/
theorem lookupServed_some (hv : RootVolume disk priv) {part : List UInt8} {item : FatItem} (hcopy : item.item ≠ 0) {i : Nat}
    (hlast : priv.rootDirectory.LastMatch part priv.rootDirectory.total i)
    (hitem : priv.rootDirectory.item[i]? = some item.record) :
    LookupRight disk [part] (some item) ↔ LookupServed disk priv part [] := by
  have hholds := hv.holds_item hlast.below hitem
  constructor
  · rintro ⟨_, hheld, hname⟩
    refine ⟨fun _ _ _ => ⟨i, hlast.below, hlast.at_i⟩, fun k hk hmatch => ?_⟩
    refine ⟨i, Nat.le_of_not_lt fun hlt => hlast.last k hlt hk hmatch, hlast.below, hlast.at_i, ?_⟩
    exact ⟨item.record, hitem, hholds.mp hheld, hname⟩
  · rintro ⟨_, hnamed⟩
    obtain ⟨j, hij, hj, hmatch, record, hrecord, hlive, hname⟩ := hnamed i hlast.below hlast.at_i
    obtain rfl : i = j := by
      by_contra hne
      exact hlast.last j (Nat.lt_of_le_of_ne hij hne) hj hmatch
    obtain rfl : item.record = record := Option.some_inj.mp (hitem.symm.trans hrecord)
    exact ⟨hcopy, hholds.mpr hlive, hname⟩

/-- What the lookup answers is right just when it is served. -/
theorem fat16GetDirectoryEntry_right (hv : RootVolume disk priv) (hA : NeverNull A) (path : PathPart) (next : List PathPart)
    (r : Ram H) : Ensures (fat16GetDirectoryEntry A disk priv path next) (fun found _ =>
      (LookupRight disk ((path :: next).map PathPart.name) found ↔
        LookupServed disk priv path.name (next.map PathPart.name))) r := by
  unfold fat16GetDirectoryEntry fat16FindItemInDirectory
  refine wp.bind (fat16FindItem_last hA disk priv priv.rootDirectory path.name priv.rootDirectory.total r)
    fun rootItem r hfind => ?_
  cases rootItem with
  | none =>
    cases next with
    | nil => exact lookupServed_none hfind
    | cons p rest => exact Iff.rfl
  | some item =>
    obtain ⟨hcopy, htype, i, hlast, hitem⟩ := hfind
    cases next with
    | nil => exact lookupServed_some hv hcopy hlast hitem
    | cons p rest =>
      -- every item is a file
      dsimp only
      rw [if_pos (by rw [htype]; decide)]
      exact Iff.rfl

/-- The lookup answers just when its first search is in bounds, if it gets its memory. -/
theorem fat16GetDirectoryEntry_inBounds (hA : NeverNull A) (disk : Memory) (priv : FatPrivate) (path : PathPart)
    (next : List PathPart) (r : Ram H) : wp (fat16GetDirectoryEntry A disk priv path next)
      (fun _ _ => priv.rootDirectory.InBounds disk priv path.name priv.rootDirectory.total)
      (fun e => e = .heapOverrun ∨ ¬ priv.rootDirectory.InBounds disk priv path.name priv.rootDirectory.total) r := by
  unfold fat16GetDirectoryEntry fat16FindItemInDirectory
  have hfind := wp.and (fat16FindItem_inBounds hA disk priv priv.rootDirectory path.name priv.rootDirectory.total r)
    (fat16FindItem_last hA disk priv priv.rootDirectory path.name priv.rootDirectory.total r)
  refine wp.bind (hfind.mono (fun _ _ h => h) fun _ h => h.1) fun rootItem r h => ?_
  obtain ⟨hbounds, hlast⟩ := h
  cases rootItem with
  | none => exact hbounds
  | some item =>
    cases next with
    | nil => exact hbounds
    | cons p rest =>
      dsimp only
      rw [if_pos (by rw [hlast.2.1]; decide)]
      exact hbounds

theorem ladder_neverNull : NeverNull ladder := by
  intro size h ptr h' hk
  unfold ladder at hk
  simp only at hk
  split at hk
  · cases hk
    unfold ladderAddr
    simp only [heapBaseAddress]
    omega
  · cases hk

/-- The root directory is sector 2 and has two records: one that starts with the given byte,
and the file `X`. -/
def twoRecordDisk (first : UInt8) : Memory := fun a =>
  if a = 12 then 2 else if a = 13 then 1 else if a = 14 then 1 else if a = 16 then 1 else if a = 17 then 16
  else if a = 22 then 1 else if a = 38 then 0x29 else if a = 1024 then first else if a = 1056 then 0x58
  else if (1024 < a ∧ a < 1035) ∨ (1056 < a ∧ a < 1067) then 0x20 else 0

def twoRecordPrivate (first : UInt8) (total : Nat) : FatPrivate where
  header := fatHeader (twoRecordDisk first)
  rootDirectory := ⟨(List.range 16).map fun i => fatDirectoryItemAt (twoRecordDisk first) (1024 + i * 32), total, 2, 3⟩

theorem twoRecord_header (first : UInt8) : fatHeader (twoRecordDisk first) = ⟨512, 1, 1, 1, 16, 1, 0x29⟩ := by
  simp [fatHeader, twoRecordDisk, read16]

theorem twoRecord_mounted {first : UInt8} {total : Nat}
    (h : fat16GetTotalItemsForDirectory (twoRecordDisk first) 2 = some total) :
    RootVolume (twoRecordDisk first) (twoRecordPrivate first total) := by
  have hroot : fat16GetRootDirectory (twoRecordDisk first) (fatHeader (twoRecordDisk first)) =
      some (twoRecordPrivate first total).rootDirectory := by
    unfold fat16GetRootDirectory
    rw [twoRecord_header]
    simp only [show rootDirSectorPos ⟨512, 1, 1, 1, 16, 1, 0x29⟩ = 2 from rfl,
      @rootItems_eq (twoRecordDisk first) _ _ (show fat16SectorToAbsolute 2 + 16 * sizeofFatDirectoryItem ≤ 2 ^ 32 by decide)]
    exact Option.bind_eq_some_iff.mpr ⟨total, h, rfl⟩
  refine ⟨?_, ?_, ?_⟩
  · unfold fat16Resolve
    simp only [hroot]
    rw [twoRecord_header]
    rfl
  · rw [twoRecord_header]
  · unfold rootStart
    rw [twoRecord_header]
    decide

/-- The file is the record in slot 1. -/
theorem twoRecord_resolves {first : UInt8} (hfirst : first ≠ 0) :
    DirectoryArea.root.Resolves (twoRecordDisk first) [[0x78]] (fatDirectoryItemAt (twoRecordDisk first) 1056) := by
  have hslot : ∀ i, i < 16 → DirectoryArea.root.slot (twoRecordDisk first) i = some (1024 + i * 32) := by
    intro i hi
    unfold DirectoryArea.slot rootStart
    simp only [twoRecord_header]
    exact if_pos hi
  refine ⟨⟨1, 1056, hslot 1 (by decide), rfl, ?_, fun i p hi hp => ?_⟩, ?_⟩
  · exact (by decide : (0x58 : UInt8) ≠ 0xE5)
  · rw [hslot i (by omega)] at hp
    cases hp
    rcases Nat.le_one_iff_eq_zero_or_eq_one.mp hi with rfl | rfl
    · exact hfirst
    · exact (by decide : (0x58 : UInt8) ≠ 0)
  · show List.map tolower (trimBlanks [0x58, 0x20, 0x20, 0x20, 0x20, 0x20, 0x20, 0x20]) = _
    decide

end BasicOS

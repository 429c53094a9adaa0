import BasicOS.Fs.Fat16

/-! What a read of a FAT16 file delivers.

`FileOnVolume` is a file on a well-formed volume: its clusters are linked in the FAT and
hold its bytes, in chain order. The driver never follows a chain: the test for reserved
entries in `fat16_get_cluster_for_offset` is true of every number, so any offset past the
first cluster fails, and a read of more than a cluster's bytes fails at its second turn.
What is left is one run of bytes from inside the first cluster on, which where it leaves
that cluster reads on to whatever is next to it on the disk. `fat16Read_iff` says exactly
when that is the file. -/
namespace BasicOS
open Lib

/-! ### Files on a volume -/

/-- A FAT16 volume of 512-byte sectors as the driver has mounted it. -/
structure MountedVolume (disk : Memory) (priv : FatPrivate) : Prop where
  header : priv.header = fatHeader disk
  ending : priv.rootDirectory.endingSectorPos =
    rootDirSectorPos (fatHeader disk) + rootDirSize (fatHeader disk) / diskSectorSize
  sector : (fatHeader disk).bytesPerSector = diskSectorSize
  cluster : 0 < (fatHeader disk).sectorsPerCluster
  root : (fatHeader disk).rootDirectoryEntries % 16 = 0

/-- The bytes of a cluster. -/
def clusterSize (disk : Memory) : Nat := (fatHeader disk).sectorsPerCluster * diskSectorSize

/-- Where a cluster starts on the disk: behind the reserved sectors, the FATs and the root
directory, with cluster 2 first. -/
def clusterStart (disk : Memory) (cluster : Nat) : Nat :=
  ((fatHeader disk).numReservedSectors + (fatHeader disk).numFatCopies * (fatHeader disk).sectorsPerFat) *
    diskSectorSize + (fatHeader disk).rootDirectoryEntries * sizeofFatDirectoryItem +
    (cluster - 2) * clusterSize disk

/-- The FAT's entry for a cluster. -/
def fatEntry (disk : Memory) (cluster : Nat) : Nat :=
  read16 disk ((fatHeader disk).numReservedSectors * diskSectorSize + 2 * cluster)

/-- The clusters follow each other in the FAT, up to an end mark. -/
def FatChain (disk : Memory) : List Nat → Prop
  | [] => False
  | [c] => 0xFFF8 ≤ fatEntry disk c
  | c :: d :: rest => fatEntry disk c = d ∧ FatChain disk (d :: rest)

/-- A file entry whose chain is long enough for its size, on a part of the disk that 32-bit
positions reach. -/
structure FileOnVolume (disk : Memory) (item : FatDirectoryItem) (chain : List Nat) : Prop where
  first : item.high16BitsFirstCluster = 0 ∧ chain.head? = some item.low16BitsFirstCluster
  linked : FatChain disk chain
  clusters : ∀ c ∈ chain, 2 ≤ c ∧ c < 0xFFF0 ∧ clusterStart disk c + clusterSize disk ≤ 2 ^ 32
  size : item.fileSize ≤ chain.length * clusterSize disk ∧ item.fileSize < 2 ^ 32

/-- The concatenation of the clusters, in chain order. -/
def fileBytes (disk : Memory) (chain : List Nat) : List UInt8 :=
  chain.flatMap fun c => diskBytes disk (clusterStart disk c) (clusterSize disk)

/-- What `fat16_resolve` keeps of the disk. -/
theorem fat16Resolve_ok {disk : Memory} {priv : FatPrivate} (h : fat16Resolve disk = some (.ok priv)) :
    priv.header = fatHeader disk ∧ fat16GetRootDirectory disk (fatHeader disk) = some priv.rootDirectory ∧
      priv.rootDirectory.endingSectorPos =
        rootDirSectorPos (fatHeader disk) + rootDirSize (fatHeader disk) / diskSectorSize := by
  unfold fat16Resolve at h
  simp only at h
  split at h
  · cases h
  · obtain ⟨root, hdirectory, heq⟩ := Option.map_eq_some_iff.mp h
    cases heq
    refine ⟨rfl, hdirectory, ?_⟩
    obtain ⟨total, _, hitems⟩ := Option.bind_eq_some_iff.mp hdirectory
    cases hitems
    rfl

/-- An item is its 32 bytes. -/
theorem fatDirectoryItemAt_congr {m m' : Memory} {a b : Nat}
    (h : ∀ k, k < sizeofFatDirectoryItem → m (a + k) = m' (b + k)) : fatDirectoryItemAt m a = fatDirectoryItemAt m' b := by
  have hbytes : ∀ off n, off + n ≤ sizeofFatDirectoryItem → diskBytes m (a + off) n = diskBytes m' (b + off) n := by
    intro off n hfit
    refine List.map_congr_left fun i hi => ?_
    have hi := List.mem_range.mp hi
    rw [Nat.add_assoc, Nat.add_assoc]
    exact h (off + i) (by omega)
  have hname := hbytes 0 8 (by decide)
  rw [Nat.add_zero, Nat.add_zero] at hname
  unfold fatDirectoryItemAt read16 read32
  simp only [FatDirectoryItem.mk.injEq, Nat.add_assoc]
  refine ⟨hname, hbytes 8 3 (by decide), ?_⟩
  simp only [h _ (show 11 < 32 by decide), h _ (show 12 < 32 by decide), h _ (show 13 < 32 by decide),
    h _ (show 14 < 32 by decide), h _ (show 15 < 32 by decide), h _ (show 16 < 32 by decide),
    h _ (show 17 < 32 by decide), h _ (show 18 < 32 by decide), h _ (show 19 < 32 by decide),
    h _ (show 20 < 32 by decide), h _ (show 21 < 32 by decide), h _ (show 22 < 32 by decide),
    h _ (show 23 < 32 by decide), h _ (show 24 < 32 by decide), h _ (show 25 < 32 by decide),
    h _ (show 26 < 32 by decide), h _ (show 27 < 32 by decide), h _ (show 28 < 32 by decide),
    h _ (show 29 < 32 by decide), h _ (show 30 < 32 by decide), h _ (show 31 < 32 by decide), Nat.reduceAdd, and_self]

/-- The items of a root directory below 4 GiB are the records at its positions. -/
theorem rootItems_eq {disk : Memory} {start entries : Nat} (hfits : start + entries * sizeofFatDirectoryItem ≤ 2 ^ 32) :
    ((List.range entries).map fun i => fatDirectoryItemAt (streamFrom disk start) (i * sizeofFatDirectoryItem)) =
      (List.range entries).map fun i => fatDirectoryItemAt disk (start + i * sizeofFatDirectoryItem) := by
  refine List.map_congr_left fun i hi => fatDirectoryItemAt_congr fun k hk => ?_
  have hi := List.mem_range.mp hi
  simp only [sizeofFatDirectoryItem] at *
  unfold streamFrom
  rw [← Nat.add_assoc, u32_of_lt (by omega)]

/-- `fat16_resolve` mounts such a volume. -/
theorem mountedVolume_of_resolve {disk : Memory} {priv : FatPrivate} (h : fat16Resolve disk = some (.ok priv))
    (hsector : (fatHeader disk).bytesPerSector = diskSectorSize) (hcluster : 0 < (fatHeader disk).sectorsPerCluster)
    (hroot : (fatHeader disk).rootDirectoryEntries % 16 = 0) : MountedVolume disk priv :=
  ⟨(fat16Resolve_ok h).1, (fat16Resolve_ok h).2.2, hsector, hcluster, hroot⟩

/-! ### Where the driver reads -/

variable {disk : Memory} {priv : FatPrivate} {item : FatDirectoryItem} {chain : List Nat}

theorem MountedVolume.size (hv : MountedVolume disk priv) : sizeOfClusterBytes priv = clusterSize disk := by
  unfold sizeOfClusterBytes
  rw [hv.header]
  rfl

theorem MountedVolume.size_pos (hv : MountedVolume disk priv) : 0 < clusterSize disk :=
  Nat.mul_pos hv.cluster (by decide)

theorem MountedVolume.size_lt (disk : Memory) : clusterSize disk < 2 ^ 17 := by
  have h := (disk 13).toNat_lt
  show (disk 13).toNat * diskSectorSize < 2 ^ 17
  simp only [diskSectorSize]
  omega

/-- The driver's position for a cluster of the file is where the cluster starts. -/
theorem MountedVolume.start (hv : MountedVolume disk priv) {c : Nat} (hc2 : 2 ≤ c) (hc : c < 0xFFF0)
    (hfit : clusterStart disk c + clusterSize disk ≤ 2 ^ 32) :
    u32 (fat16ClusterToSector priv c * diskSectorSize) = clusterStart disk c := by
  have hpos := hv.size_pos
  have hroot := hv.root
  have hclusters : ((c : Int) - 2) * (fatHeader disk).sectorsPerCluster =
      (((c - 2) * (fatHeader disk).sectorsPerCluster : Nat) : Int) := by
    rw [Nat.cast_mul, Nat.cast_sub hc2]
    rfl
  unfold fat16ClusterToSector
  rw [hv.header, hv.ending, s32_of_lt (show c < 2 ^ 31 by omega), hclusters, u32OfInt_natCast]
  unfold clusterStart rootDirSectorPos rootDirSize at *
  unfold clusterSize at *
  rw [← Nat.mul_assoc] at hfit ⊢
  generalize (c - 2) * (fatHeader disk).sectorsPerCluster = ahead at *
  generalize (fatHeader disk).numFatCopies * (fatHeader disk).sectorsPerFat = fats at *
  generalize (fatHeader disk).sectorsPerCluster = spc at *
  simp only [u32, sizeofFatDirectoryItem, diskSectorSize] at *
  omega

/-- A turn of the loop fails, whatever the entry is. -/
theorem fat16ClusterAhead_succ (disk : Memory) (priv : FatPrivate) (k c : Nat) :
    fat16ClusterAhead disk priv (k + 1) c = -eio := by
  simp only [fat16ClusterAhead]
  split
  · rfl
  · split
    · rfl
    · rw [if_pos (by omega)]

/-- Only the first cluster is ever found. -/
theorem fat16GetClusterForOffset_eq (hv : MountedVolume disk priv) {c offset : Nat} (hc : c < 2 ^ 31)
    (hoffset : offset < 2 ^ 32) :
    fat16GetClusterForOffset disk priv c (s32 offset) = if offset < clusterSize disk then (c : Int) else -eio := by
  unfold fat16GetClusterForOffset
  rw [hv.size, u32OfInt_s32, u32_of_lt hoffset]
  by_cases h : offset < clusterSize disk
  · rw [if_pos h, Nat.div_eq_of_lt h]
    exact s32_of_lt hc
  · rw [if_neg h]
    obtain ⟨n, hn⟩ : ∃ n, offset / clusterSize disk = n + 1 :=
      ⟨offset / clusterSize disk - 1, by
        have := Nat.div_pos (Nat.le_of_not_lt h) hv.size_pos
        omega⟩
    simp only [hn, fat16ClusterAhead_succ]

/-! ### The read loop -/

theorem fat16ReadInternalFrom_done (disk : Memory) (priv : FatPrivate) (c fuel : Nat) (offset : Int) :
    fat16ReadInternalFrom disk priv c fuel offset 0 = (0, []) := by
  cases fuel <;> rfl

/-- A turn outside the first cluster ends the loop. -/
theorem fat16ReadInternalFrom_ahead (hv : MountedVolume disk priv) {c offset total fuel : Nat} (hc : c < 2 ^ 31)
    (hoffset : offset < 2 ^ 32) (htotal : 0 < total) (hahead : clusterSize disk ≤ offset) :
    fat16ReadInternalFrom disk priv c (fuel + 1) (s32 offset) total = (-eio, []) := by
  unfold fat16ReadInternalFrom
  simp only [fat16GetClusterForOffset_eq hv hc hoffset, if_neg (Nat.not_lt.mpr hahead), if_neg (Nat.ne_of_gt htotal)]
  rw [if_pos (by decide)]

/-- A turn inside the first cluster reads on from there. -/
theorem fat16ReadInternalFrom_first (hv : MountedVolume disk priv) {c offset total fuel : Nat} (hc2 : 2 ≤ c)
    (hc : c < 0xFFF0) (hfit : clusterStart disk c + clusterSize disk ≤ 2 ^ 32) (htotal : 0 < total)
    (hoffset : offset < clusterSize disk) :
    let n := if total > clusterSize disk then clusterSize disk else total
    fat16ReadInternalFrom disk priv c (fuel + 1) (s32 offset) total =
      ((fat16ReadInternalFrom disk priv c fuel (s32 (offset + n)) (total - n)).1,
        streamBytes disk (clusterStart disk c + offset) n ++
          (fat16ReadInternalFrom disk priv c fuel (s32 (offset + n)) (total - n)).2) := by
  have hsize := MountedVolume.size_lt disk
  have hfirst : fat16GetClusterForOffset disk priv c (s32 offset) = c := by
    rw [fat16GetClusterForOffset_eq hv (by omega) (by omega), if_pos hoffset]
  have hoff : u32OfInt (s32 offset) = offset := by rw [u32OfInt_s32, u32_of_lt (by omega)]
  rw [fat16ReadInternalFrom, if_neg (Nat.ne_of_gt htotal)]
  simp only [hfirst, hoff, hv.size, u32OfInt_natCast, u32_of_lt (show c < 2 ^ 32 by omega), hv.start hc2 hc hfit,
    Nat.mod_eq_of_lt hoffset, u32_of_lt (show clusterStart disk c + offset < 2 ^ 32 by omega)]
  rw [if_neg (by omega), diskstreamerRead_eq disk _ (by omega)]

/-- A read of the driver succeeds inside the first cluster only. -/
theorem fat16ReadInternal_eq (hv : MountedVolume disk priv) {c offset size : Nat} (hc2 : 2 ≤ c) (hc : c < 0xFFF0)
    (hfit : clusterStart disk c + clusterSize disk ≤ 2 ^ 32) (hsize : 0 < size) (hoffset : offset < 2 ^ 32) :
    if offset < clusterSize disk ∧ size ≤ clusterSize disk then
      fat16ReadInternal disk priv c (s32 offset) size = (0, streamBytes disk (clusterStart disk c + offset) size)
    else (fat16ReadInternal disk priv c (s32 offset) size).1 = -eio := by
  have hlt := MountedVolume.size_lt disk
  unfold fat16ReadInternal
  obtain ⟨fuel, rfl⟩ : ∃ fuel, size = fuel + 1 := ⟨size - 1, by omega⟩
  by_cases hfirst : offset < clusterSize disk
  · rw [fat16ReadInternalFrom_first hv hc2 hc hfit hsize hfirst]
    by_cases hone : fuel + 1 ≤ clusterSize disk
    · rw [if_pos ⟨hfirst, hone⟩]
      simp only [if_neg (Nat.not_lt.mpr hone), Nat.sub_self, fat16ReadInternalFrom_done, List.append_nil]
    · -- the second turn starts past the first cluster
      rw [if_neg fun h => hone h.2]
      simp only [if_pos (Nat.lt_of_not_le hone)]
      have hpos := hv.size_pos
      obtain ⟨k, hk⟩ : ∃ k, fuel = k + 1 := ⟨fuel - 1, by omega⟩
      rw [hk, fat16ReadInternalFrom_ahead hv (by omega) (by omega) (by omega) (by omega)]
  · rw [if_neg fun h => hfirst h.1]
    rw [fat16ReadInternalFrom_ahead hv (by omega) hoffset hsize (Nat.le_of_not_lt hfirst)]

/-! ### The file's bytes -/

theorem fileBytes_cons (disk : Memory) (c : Nat) (rest : List Nat) :
    fileBytes disk (c :: rest) = diskBytes disk (clusterStart disk c) (clusterSize disk) ++ fileBytes disk rest := rfl

/-- The bytes of the first cluster. -/
theorem fileBytes_first (disk : Memory) (c : Nat) (rest : List Nat) {k : Nat} (hk : k < clusterSize disk) :
    (fileBytes disk (c :: rest))[k]? = some (disk (clusterStart disk c + k)) := by
  rw [fileBytes_cons, List.getElem?_append_left (by simpa using hk), getElem?_diskBytes disk hk]

/-- The bytes of the second. -/
theorem fileBytes_second (disk : Memory) (c d : Nat) (rest : List Nat) {k : Nat} (hk : clusterSize disk ≤ k)
    (hk' : k - clusterSize disk < clusterSize disk) :
    (fileBytes disk (c :: d :: rest))[k]? = some (disk (clusterStart disk d + (k - clusterSize disk))) := by
  rw [fileBytes_cons, List.getElem?_append_right (by simpa using hk), length_diskBytes, fileBytes_first disk d rest hk']

/-- The bytes read inside the first cluster and on from there are the file's when the second
cluster is what lies behind the first. -/
theorem streamBytes_eq_file {c : Nat} {rest : List Nat} {offset size : Nat}
    (hfit : clusterStart disk c + clusterSize disk ≤ 2 ^ 32) (hoffset : offset < clusterSize disk)
    (hsize : size ≤ clusterSize disk) (hlong : offset + size ≤ (c :: rest).length * clusterSize disk) :
    streamBytes disk (clusterStart disk c + offset) size = ((fileBytes disk (c :: rest)).drop offset).take size ↔
      ∀ d rest', rest = d :: rest' → ∀ i, clusterSize disk ≤ offset + i → i < size →
        disk (u32 (clusterStart disk c + offset + i)) =
          disk (clusterStart disk d + (offset + i - clusterSize disk)) := by
  have hread : ∀ i, i < size → (streamBytes disk (clusterStart disk c + offset) size)[i]? =
      some (disk (u32 (clusterStart disk c + offset + i))) := fun i hi => by simp [streamBytes, hi]
  have hfile : ∀ i, i < size → (((fileBytes disk (c :: rest)).drop offset).take size)[i]? =
      (fileBytes disk (c :: rest))[offset + i]? := fun i hi => by rw [List.getElem?_take_of_lt hi, List.getElem?_drop]
  rw [List.ext_getElem?_iff]
  constructor
  · rintro h d rest' rfl i hahead hi
    have hbyte := h i
    rw [hread i hi, hfile i hi, fileBytes_second disk c d rest' hahead (by omega), Option.some.injEq] at hbyte
    exact hbyte
  · intro h i
    by_cases hi : i < size
    · rw [hread i hi, hfile i hi]
      by_cases hahead : clusterSize disk ≤ offset + i
      · cases rest with
        | nil =>
          rw [List.length_singleton, Nat.one_mul] at hlong
          omega
        | cons d rest' =>
          rw [fileBytes_second disk c d rest' hahead (by omega), h d rest' rfl i hahead hi]
      · rw [fileBytes_first disk c rest (by omega), u32_of_lt (by omega), Nat.add_assoc]
    · rw [List.getElem?_eq_none (by simpa [streamBytes] using Nat.le_of_not_lt hi),
        List.getElem?_eq_none (by rw [List.length_take]; omega)]

/-- One block read. -/
theorem fat16Read_one (disk : Memory) (priv : FatPrivate) (item : FatDirectoryItem) (offset size : Nat) :
    let (res, bytes) := fat16ReadInternal disk priv (fat16GetFirstCluster item) (s32 offset) size
    fat16Read disk priv ⟨item, offset⟩ size 1 = if res < 0 then (res, bytes) else (1, bytes) := by
  unfold fat16Read fat16ReadBlocks fat16ReadBlocks
  generalize fat16ReadInternal disk priv (fat16GetFirstCluster item) (s32 offset) size = r
  obtain ⟨res, bytes⟩ := r
  by_cases hres : res < 0
  · simp only [if_pos hres]
  · simp only [if_neg hres, List.append_nil, Int.lt_irrefl, if_false]
    rfl

/-- **A read of one block delivers the file's bytes exactly when** it starts in the first
cluster, is no longer than a cluster, and what lies behind the first cluster on the disk,
as far as the read goes, is the start of the second. -/
theorem fat16Read_iff (hv : MountedVolume disk priv) (hf : FileOnVolume disk item chain) {offset size : Nat}
    (hsize : 0 < size) (hfile : offset + size ≤ item.fileSize) :
    fat16Read disk priv ⟨item, offset⟩ size 1 = (1, ((fileBytes disk chain).drop offset).take size) ↔
      offset < clusterSize disk ∧ size ≤ clusterSize disk ∧ ∀ c d rest, chain = c :: d :: rest →
        ∀ i, clusterSize disk ≤ offset + i → i < size →
          disk (u32 (clusterStart disk c + offset + i)) =
            disk (clusterStart disk d + (offset + i - clusterSize disk)) := by
  have hcs := MountedVolume.size_lt disk
  obtain ⟨⟨hhigh, hhead⟩, _, hclusters, hlong, h32⟩ := hf
  obtain ⟨c, rest, rfl⟩ : ∃ c rest, chain = c :: rest := by
    cases chain with
    | nil => cases hhead
    | cons c rest => exact ⟨c, rest, rfl⟩
  obtain ⟨hc2, hc, hfit⟩ := hclusters c (List.mem_cons_self ..)
  have hcluster : fat16GetFirstCluster item = c := by
    rw [List.head?_cons, Option.some.injEq] at hhead
    rw [fat16GetFirstCluster, hhigh, Nat.zero_or, hhead]
  have hread := fat16ReadInternal_eq hv hc2 hc hfit hsize (show offset < 2 ^ 32 by omega)
  have hone := fat16Read_one disk priv item offset size
  rw [hcluster] at hone
  simp only at hone
  rw [hone]
  by_cases hfirst : offset < clusterSize disk ∧ size ≤ clusterSize disk
  · rw [if_pos hfirst] at hread
    rw [hread, if_neg (Int.lt_irrefl 0), Prod.mk.injEq, and_iff_right rfl, and_iff_right hfirst.1,
      and_iff_right hfirst.2, streamBytes_eq_file hfit hfirst.1 hfirst.2 (by omega)]
    constructor
    · rintro h c' d rest' heq
      obtain ⟨rfl, rfl⟩ := List.cons_eq_cons.mp heq
      exact h d rest' rfl
    · rintro h d rest' rfl
      exact h c d rest' rfl
  · rw [if_neg hfirst] at hread
    refine iff_of_false (fun h => ?_) fun h => hfirst ⟨h.1, h.2.1⟩
    rw [hread, if_pos (by decide)] at h
    have hres : -eio = 1 := congrArg Prod.fst h
    exact absurd hres (by decide)

/-! ### A small volume -/

/-- One sector each reserved, in the FAT and in the root directory, and clusters of one
sector; cluster 2 is followed by cluster 3, which is the last of its chain. -/
def smallDisk : Memory := fun a =>
  if a = 12 then 2 else if a = 13 then 1 else if a = 14 then 1 else if a = 16 then 1 else if a = 17 then 16
  else if a = 22 then 1 else if a = 516 then 3 else if a = 518 then 0xFF else if a = 519 then 0xFF
  else if a < 1024 then 0 else UInt8.ofNat a

def smallPrivate : FatPrivate := ⟨fatHeader smallDisk, ⟨[], 0, 2, 3⟩⟩

def smallItem : FatDirectoryItem := ⟨[], [], 0, 0, 0, 0, 0, 0, 0, 0, 0, 2, 1024⟩

theorem smallDisk_mounted : MountedVolume smallDisk smallPrivate :=
  ⟨rfl, by decide, by decide, by decide, by decide⟩

theorem smallItem_onVolume : FileOnVolume smallDisk smallItem [2, 3] :=
  ⟨⟨rfl, rfl⟩, ⟨by decide, (by decide : 0xFFF8 ≤ fatEntry smallDisk 3)⟩, by decide, by decide⟩

/-- A read over the end of the first cluster, with the second one right behind it. -/
theorem fat16Read_contiguous :
    fat16Read smallDisk smallPrivate ⟨smallItem, 500⟩ 24 1 =
      (1, ((fileBytes smallDisk [2, 3]).drop 500).take 24) := by
  refine (fat16Read_iff smallDisk_mounted smallItem_onVolume (by decide) (by decide)).mpr
    ⟨by decide, by decide, fun c d rest heq i hi hlt => ?_⟩
  have hc : c = 2 := (List.cons_eq_cons.mp heq).1.symm
  have hd : d = 3 := (List.cons_eq_cons.mp (List.cons_eq_cons.mp heq).2).1.symm
  have hcs : clusterSize smallDisk = 512 := by decide
  have h2 : clusterStart smallDisk 2 = 1536 := by decide
  have h3 : clusterStart smallDisk 3 = 2048 := by decide
  rw [hc, hd, h2, h3, hcs, u32_of_lt (by omega), show 1536 + 500 + i = 2048 + (500 + i - 512) by omega]

/-- **The second cluster of a file cannot be read**: its first byte gives `-EIO`. -/
theorem fat16Read_second_cluster :
    ¬ ∀ (disk : Memory) (priv : FatPrivate) (item : FatDirectoryItem) (chain : List Nat),
      MountedVolume disk priv → FileOnVolume disk item chain → ∀ offset size, 0 < size →
      offset + size ≤ item.fileSize →
      fat16Read disk priv ⟨item, offset⟩ size 1 = (1, ((fileBytes disk chain).drop offset).take size) := by
  intro h
  have hread := h smallDisk smallPrivate smallItem [2, 3] smallDisk_mounted smallItem_onVolume 512 1 (by decide)
    (by decide)
  exact absurd (congrArg Prod.fst hread) (by decide)

end BasicOS

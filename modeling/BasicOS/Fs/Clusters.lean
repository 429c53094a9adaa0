import BasicOS.Fs.FileContents
import BasicOS.Fs.Directories

/-! Where the clusters of a mounted volume are on the disk.

The data area starts behind the root directory. `fat16_get_root_directory` rounds the sectors
of the root directory up in `total_sectors`, but takes the end from the division that rounds
down: with a number of entries that does not fill its last sector, the data area starts on
that sector. The position of a byte is computed in 32 bits, so the clusters that end past
4 GiB are read from the start of the disk. `clusterPlaced_iff` says that nothing else goes
wrong. -/
namespace BasicOS
open Lib

variable {disk : Memory} {priv : FatPrivate}

/-- Where `fat16_read_internal_from_stream` seeks to for an offset in a cluster. -/
def fat16StartingPos (priv : FatPrivate) (clusterToUse offset : Nat) : Nat :=
  u32 (u32 (fat16ClusterToSector priv clusterToUse * diskSectorSize) + offset % sizeOfClusterBytes priv)

/-- A turn of the read loop reads from there. -/
theorem fat16ReadInternalFrom_turn (disk : Memory) (priv : FatPrivate) (cluster fuel : Nat) (offset : Int) {total : Nat}
    (htotal : total ≠ 0) (hcluster : ¬ fat16GetClusterForOffset disk priv cluster offset < 0) :
    let n := if total > sizeOfClusterBytes priv then sizeOfClusterBytes priv else total
    let rest := fat16ReadInternalFrom disk priv cluster fuel (s32 (u32OfInt offset + n)) (total - n)
    fat16ReadInternalFrom disk priv cluster (fuel + 1) offset total =
      (rest.1, (diskstreamerRead disk (fat16StartingPos priv
        (u32OfInt (fat16GetClusterForOffset disk priv cluster offset)) (u32OfInt offset)) n).1 ++ rest.2) := by
  rw [fat16ReadInternalFrom, if_neg htotal]
  simp only [if_neg hcluster]
  rfl

/-- **The cluster in its place**: its sector counts from the end of the root directory, rounded up
to a sector; no other cluster, no FAT and no entry of the root directory is on its sectors; and
the driver's position of each of its bytes is that byte's. -/
structure ClusterPlaced (disk : Memory) (priv : FatPrivate) (c : Nat) : Prop where
  sector : fat16ClusterToSector priv c =
    (fatHeader disk).numReservedSectors + (fatHeader disk).numFatCopies * (fatHeader disk).sectorsPerFat +
      ((fatHeader disk).rootDirectoryEntries * 32 + 511) / 512 + (c - 2) * (fatHeader disk).sectorsPerCluster
  apart : ∀ d, 2 ≤ d → d < 2 ^ 16 → d ≠ c →
    fat16ClusterToSector priv c + (fatHeader disk).sectorsPerCluster ≤ fat16ClusterToSector priv d ∨
      fat16ClusterToSector priv d + (fatHeader disk).sectorsPerCluster ≤ fat16ClusterToSector priv c
  behind : rootStart disk + rootDirSize (fatHeader disk) ≤ fat16ClusterToSector priv c * diskSectorSize
  position : ∀ offset, offset < clusterSize disk →
    fat16StartingPos priv c offset = fat16ClusterToSector priv c * diskSectorSize + offset

/-! ### The driver's sectors -/

theorem rootDirSectorPos_lt (disk : Memory) : rootDirSectorPos (fatHeader disk) < 2 ^ 25 := by
  have hcopies : (fatHeader disk).numFatCopies ≤ 255 := Nat.le_of_lt_succ (disk 16).toNat_lt
  have hfat : (fatHeader disk).sectorsPerFat ≤ 65535 := by
    have h0 := (disk 22).toNat_lt
    have h1 := (disk 23).toNat_lt
    show (disk 22).toNat + 2 ^ 8 * (disk 23).toNat ≤ 65535
    omega
  have hreserved : (fatHeader disk).numReservedSectors ≤ 65535 := by
    have h0 := (disk 14).toNat_lt
    have h1 := (disk 15).toNat_lt
    show (disk 14).toNat + 2 ^ 8 * (disk 15).toNat ≤ 65535
    omega
  have hfats := Nat.mul_le_mul hcopies hfat
  unfold rootDirSectorPos
  omega

theorem rootDirectoryEntries_lt (disk : Memory) : (fatHeader disk).rootDirectoryEntries < 2 ^ 16 := by
  have h0 := (disk 17).toNat_lt
  have h1 := (disk 18).toNat_lt
  show (disk 17).toNat + 2 ^ 8 * (disk 18).toNat < 2 ^ 16
  omega

/-- The sectors of the clusters follow each other from where the driver sees the end of the
root directory. -/
theorem fat16ClusterToSector_eq (h : fat16Resolve disk = some (.ok priv)) {c : Nat} (hc2 : 2 ≤ c) (hc : c < 2 ^ 16) :
    fat16ClusterToSector priv c = rootDirSectorPos (fatHeader disk) +
      rootDirSize (fatHeader disk) / diskSectorSize + (c - 2) * (fatHeader disk).sectorsPerCluster := by
  have hmounted := fat16Resolve_ok h
  have hclusters : ((c : Int) - 2) * (fatHeader disk).sectorsPerCluster =
      (((c - 2) * (fatHeader disk).sectorsPerCluster : Nat) : Int) := by
    rw [Nat.cast_mul, Nat.cast_sub hc2]
    rfl
  have hspc : (fatHeader disk).sectorsPerCluster ≤ 255 := Nat.le_of_lt_succ (disk 13).toNat_lt
  have hahead := Nat.mul_le_mul (show c - 2 ≤ 65533 by omega) hspc
  have hstart := rootDirSectorPos_lt disk
  have hentries := rootDirectoryEntries_lt disk
  unfold fat16ClusterToSector rootDirSize
  rw [hmounted.1, hmounted.2.2, s32_of_lt (show c < 2 ^ 31 by omega), hclusters, u32OfInt_natCast]
  unfold rootDirSize
  simp only [u32, sizeofFatDirectoryItem, diskSectorSize]
  omega

/-- With a root directory of whole sectors the driver's sector is where the cluster starts. -/
theorem fat16ClusterToSector_start (h : fat16Resolve disk = some (.ok priv)) {c : Nat} (hc2 : 2 ≤ c)
    (hc : c < 2 ^ 16) (hroot : (fatHeader disk).rootDirectoryEntries % 16 = 0) :
    fat16ClusterToSector priv c * diskSectorSize = clusterStart disk c := by
  rw [fat16ClusterToSector_eq h hc2 hc]
  unfold clusterStart clusterSize rootDirSectorPos rootDirSize
  rw [← Nat.mul_assoc]
  simp only [sizeofFatDirectoryItem, diskSectorSize]
  omega

/-- Clusters do not overlap, wherever the driver places the first. -/
theorem fat16ClusterToSector_apart (h : fat16Resolve disk = some (.ok priv)) {c d : Nat} (hc2 : 2 ≤ c)
    (hc : c < 2 ^ 16) (hd2 : 2 ≤ d) (hd : d < 2 ^ 16) (hlt : c < d) :
    fat16ClusterToSector priv c + (fatHeader disk).sectorsPerCluster ≤ fat16ClusterToSector priv d := by
  have hnext : (c - 2) * (fatHeader disk).sectorsPerCluster + (fatHeader disk).sectorsPerCluster ≤
      (d - 2) * (fatHeader disk).sectorsPerCluster := by
    rw [← Nat.succ_mul]
    exact Nat.mul_le_mul_right _ (by omega)
  rw [fat16ClusterToSector_eq h hc2 hc, fat16ClusterToSector_eq h hd2 hd]
  omega

/-- The position computed is the byte's up to the wrap. -/
theorem fat16StartingPos_eq (h : fat16Resolve disk = some (.ok priv)) (c : Nat) {offset : Nat}
    (hoffset : offset < clusterSize disk) :
    fat16StartingPos priv c offset = u32 (fat16ClusterToSector priv c * diskSectorSize + offset) := by
  have hsize : sizeOfClusterBytes priv = clusterSize disk := by
    unfold sizeOfClusterBytes
    rw [(fat16Resolve_ok h).1]
    rfl
  unfold fat16StartingPos
  rw [hsize, Nat.mod_eq_of_lt hoffset]
  unfold u32
  rw [Nat.mod_add_mod]

/-! ### When a cluster is in its place -/

/-- **A cluster is in its place exactly when** the entries of the root directory fill its last
sector, and the cluster, unless it is empty, ends within 4 GiB. -/
theorem clusterPlaced_iff (h : fat16Resolve disk = some (.ok priv)) {c : Nat} (hc2 : 2 ≤ c) (hc : c < 2 ^ 16) :
    ClusterPlaced disk priv c ↔ (fatHeader disk).rootDirectoryEntries % 16 = 0 ∧
      (0 < (fatHeader disk).sectorsPerCluster → clusterStart disk c + clusterSize disk ≤ 2 ^ 32) := by
  constructor
  · intro hplaced
    have hroot : (fatHeader disk).rootDirectoryEntries % 16 = 0 := by
      have hsector := hplaced.sector
      rw [fat16ClusterToSector_eq h hc2 hc] at hsector
      unfold rootDirSectorPos rootDirSize at hsector
      simp only [sizeofFatDirectoryItem, diskSectorSize] at hsector
      omega
    refine ⟨hroot, fun hspc => ?_⟩
    -- the last byte of the cluster
    have hpos : 0 < clusterSize disk := Nat.mul_pos hspc (by decide)
    have hlast := hplaced.position (clusterSize disk - 1) (by omega)
    rw [fat16StartingPos_eq h c (by omega), fat16ClusterToSector_start h hc2 hc hroot] at hlast
    have hlt := u32_lt (clusterStart disk c + (clusterSize disk - 1))
    omega
  · rintro ⟨hroot, hfit⟩
    have hstart := fat16ClusterToSector_start h hc2 hc hroot
    refine ⟨?_, fun d hd2 hd hne => ?_, ?_, fun offset hoffset => ?_⟩
    · rw [fat16ClusterToSector_eq h hc2 hc]
      unfold rootDirSectorPos rootDirSize
      simp only [sizeofFatDirectoryItem, diskSectorSize]
      omega
    · rcases Nat.lt_or_gt_of_ne hne with hlt | hlt
      · exact .inr (fat16ClusterToSector_apart h hd2 hd hc2 hc hlt)
      · exact .inl (fat16ClusterToSector_apart h hc2 hc hd2 hd hlt)
    · rw [hstart]
      unfold rootStart clusterStart rootDirSectorPos rootDirSize
      rw [Nat.add_comm ((fatHeader disk).numFatCopies * _)]
      exact Nat.le_add_right _ _
    · have hspc : 0 < (fatHeader disk).sectorsPerCluster :=
        Nat.pos_of_mul_pos_right (Nat.lt_of_le_of_lt (Nat.zero_le _) hoffset)
      have hfits := hfit hspc
      rw [fat16StartingPos_eq h c hoffset, hstart, u32_of_lt (by omega)]

/-- The first cluster of a volume with 16 entries in the root directory. -/
theorem clusterPlaced_twoRecord : ClusterPlaced (twoRecordDisk 0x58) (twoRecordPrivate 0x58 2) 2 :=
  (clusterPlaced_iff (twoRecord_mounted (by decide +kernel)).mounted (by decide) (by decide)).mpr
    ⟨by decide, fun _ => by decide⟩

/-- One reserved sector, one FAT of one sector, and a root directory of one entry, not in use. -/
def oneEntryDisk : Memory := fun a =>
  if a = 12 then 2 else if a = 13 then 1 else if a = 14 then 1 else if a = 16 then 1 else if a = 17 then 1
  else if a = 22 then 1 else if a = 38 then 0x29 else 0

theorem oneEntry_resolves : ∃ priv, fat16Resolve oneEntryDisk = some (.ok priv) := by
  have hroot : ∃ root, fat16GetRootDirectory oneEntryDisk (fatHeader oneEntryDisk) = some root :=
    Option.isSome_iff_exists.mp (by decide +kernel)
  obtain ⟨root, hroot⟩ := hroot
  refine ⟨⟨fatHeader oneEntryDisk, root⟩, ?_⟩
  unfold fat16Resolve
  simp only [hroot]
  rfl

/-- **A cluster on the root directory**: its one entry is on sector 2, where the driver puts
cluster 2. -/
theorem clusterPlaced_not : ¬ ∀ (disk : Memory) (priv : FatPrivate) (c : Nat),
    fat16Resolve disk = some (.ok priv) → (fatHeader disk).bytesPerSector = diskSectorSize → 2 ≤ c → c < 2 ^ 16 →
    ClusterPlaced disk priv c := by
  intro h
  obtain ⟨priv, hresolve⟩ := oneEntry_resolves
  have hsector := (h oneEntryDisk priv 2 hresolve (by decide) (by decide) (by decide)).sector
  rw [fat16ClusterToSector_eq hresolve (by decide) (by decide)] at hsector
  exact absurd hsector (by decide)

end BasicOS

import BasicOS.Fs.FileContents

/-! The file allocation table as the driver reads it.

`fat16_get_fat_entry` multiplies the position of the table by that of the entry in it,
where the entry is at their sum. The two agree for no cluster of any volume
(`entryAddressed_iff`). `fat16_get_cluster_for_offset` takes the entries one by one; its
test for reserved ones is true of every number, so that no link is ever followed and it is
right in the first cluster and on broken chains alone (`clusterFollowed_iff`). -/
namespace BasicOS
open Lib

variable {disk : Memory} {priv : FatPrivate}

/-! ### Where an entry is read -/

/-- What the driver takes for the entry of a cluster. -/
theorem fat16GetFatEntry_eq (disk : Memory) (priv : FatPrivate) (cluster : Nat) :
    fat16GetFatEntry disk priv cluster =
      read16 disk (1024 * (fat16GetFirstFatSector priv * cluster % 2 ^ 22)) := by
  have hpos : u32 (u32 (fat16GetFirstFatSector priv * diskSectorSize) * u32 (cluster * basicOSFat16FatEntrySize)) =
      1024 * (fat16GetFirstFatSector priv * cluster % 2 ^ 22) := by
    unfold u32
    rw [← Nat.mul_mod, ← Nat.mul_mod_mul_left]
    congr 1
    simp only [diskSectorSize, basicOSFat16FatEntrySize]
    ring
  have hlt : fat16GetFirstFatSector priv * cluster % 2 ^ 22 < 2 ^ 22 := Nat.mod_lt _ (by decide)
  unfold fat16GetFatEntry
  simp only [hpos]
  generalize fat16GetFirstFatSector priv * cluster % 2 ^ 22 = q at *
  rw [diskstreamerRead_eq disk 2 (by omega), streamBytes_of_fit disk (by omega)]
  rfl

/-- A sector number that the product with a multiple of half a sector returns is the first. -/
theorem sector_of_product {m t : Nat} (hm : m < 256) (ht : t < 129) (hle : m ≤ 512 * t)
    (h : (512 * t - m) * m % 2 ^ 14 = t) : t = 0 := by
  have hdiv : (2 ^ 14 : Int) ∣ 512 * t * m - m * m - t := by
    have hprod : (((512 * t - m) * m : Nat) : Int) = 512 * t * m - m * m := by
      rw [Nat.cast_mul, Nat.cast_sub hle]
      push_cast
      ring
    rw [← hprod]
    omega
  -- 1 + 512 m is the inverse of 1 - 512 m modulo 2 ^ 14
  have hdiv' : (2 ^ 14 : Int) ∣ m * m + 512 * m * m * m + t := by
    obtain ⟨k, hk⟩ := hdiv
    refine ⟨16 * t * m * m - k * (1 + 512 * m), ?_⟩
    calc (m * m + 512 * m * m * m + t : Int)
        = 2 ^ 14 * (16 * t * m * m) - (512 * t * m - m * m - t) * (1 + 512 * m) := by ring
      _ = 2 ^ 14 * (16 * t * m * m - k * (1 + 512 * m)) := by rw [hk]; ring
  have hfar : ∀ m, m < 256 → (m * m + 512 * m * m * m) % 2 ^ 14 + 129 ≤ 2 ^ 14 := by decide +kernel
  have hm' := hfar m hm
  have hnat : (2 ^ 14 : Nat) ∣ m * m + 512 * m * m * m + t := by
    rw [← Int.natCast_dvd_natCast]
    exact_mod_cast hdiv'
  generalize m * m + 512 * m * m * m = s at hm' hnat
  omega

/-- The product is the sum for the first entry of a table at the start of the disk only. -/
theorem entry_position {reserved cluster : Nat} (hreserved : reserved < 2 ^ 16) (hcluster : cluster < 2 ^ 16)
    (h : 1024 * (reserved * cluster % 2 ^ 22) = reserved * 512 + 2 * cluster) : reserved = 0 ∧ cluster = 0 := by
  -- both sides are whole sectors, so the cluster number is a multiple of 256
  obtain ⟨m, rfl⟩ : ∃ m, cluster = 256 * m := ⟨cluster / 256, by omega⟩
  have hscale : reserved * (256 * m) % 2 ^ 22 = 256 * (reserved * m % 2 ^ 14) := by
    rw [← Nat.mul_mod_mul_left]
    congr 1
    ring
  rw [hscale] at h
  have hsector : reserved = 512 * (reserved * m % 2 ^ 14) - m := by omega
  have hzero := sector_of_product (m := m) (t := reserved * m % 2 ^ 14) (by omega) (by omega) (by omega)
    (by rw [← hsector])
  omega

/-- **The entry addressed**: on every disk with this header the driver takes the entry of the
cluster from its place in the first FAT. -/
def EntryAddressed (header : FatHeader) (cluster : Nat) : Prop :=
  ∀ disk priv, fatHeader disk = header → priv.header = header →
    fat16GetFatEntry disk priv cluster = fatEntry disk cluster

/-- The header is in the first bytes of the disk, behind the jump. -/
theorem fatHeader_congr (disk disk' : Memory) (h : ∀ b, 11 ≤ b → b < 39 → disk' b = disk b) :
    fatHeader disk' = fatHeader disk := by
  unfold fatHeader read16
  rw [h 11 (by decide) (by decide), h (11 + 1) (by decide) (by decide), h 13 (by decide) (by decide),
    h 14 (by decide) (by decide), h (14 + 1) (by decide) (by decide), h 16 (by decide) (by decide),
    h 17 (by decide) (by decide), h (17 + 1) (by decide) (by decide), h 22 (by decide) (by decide),
    h (22 + 1) (by decide) (by decide), h 38 (by decide) (by decide)]

/-- Two words of two bytes that do not overlap, at different even places. -/
theorem read16_differ (disk : Memory) (a b : Nat) (ha : a % 2 = 0) (hb : b % 2 = 0) (hne : a ≠ b) :
    ∃ v, read16 (fun c => if c = a then v else disk c) a ≠ read16 (fun c => if c = a then v else disk c) b := by
  have hother : ∀ v, read16 (fun c => if c = a then v else disk c) b = read16 disk b := by
    intro v
    unfold read16
    simp only
    rw [if_neg (by omega), if_neg (by omega)]
  have hlow : ∀ v : UInt8, read16 (fun c => if c = a then v else disk c) a = v.toNat + 2 ^ 8 * (disk (a + 1)).toNat := by
    intro v
    unfold read16
    simp only
    rw [if_pos trivial, if_neg (by omega)]
  by_cases hzero : read16 disk b = 2 ^ 8 * (disk (a + 1)).toNat
  · refine ⟨1, ?_⟩
    rw [hother, hlow, hzero]
    exact fun h => absurd (Nat.add_eq_right.mp h) (by decide)
  · refine ⟨0, ?_⟩
    rw [hother, hlow]
    exact fun h => hzero (by rw [← h]; exact Nat.zero_add _)

/-- **The entry is never addressed** but for entry 0 of a table at the start of the disk,
which is the entry of no cluster. -/
theorem entryAddressed_iff (disk : Memory) {cluster : Nat} (hcluster : cluster < 2 ^ 16) :
    EntryAddressed (fatHeader disk) cluster ↔ (fatHeader disk).numReservedSectors = 0 ∧ cluster = 0 := by
  have hreserved : (fatHeader disk).numReservedSectors < 2 ^ 16 := by
    have h0 := (disk 14).toNat_lt
    have h1 := (disk 15).toNat_lt
    show (disk 14).toNat + 2 ^ 8 * (disk 15).toNat < 2 ^ 16
    omega
  constructor
  · intro h
    by_contra hne
    -- change the byte the driver reads, which is no byte of the header
    obtain ⟨v, hv⟩ := read16_differ disk (1024 * ((fatHeader disk).numReservedSectors * cluster % 2 ^ 22))
      ((fatHeader disk).numReservedSectors * 512 + 2 * cluster) (by omega) (by omega)
      fun heq => hne (entry_position hreserved hcluster heq)
    have hheader := fatHeader_congr disk
      (fun c => if c = 1024 * ((fatHeader disk).numReservedSectors * cluster % 2 ^ 22) then v else disk c)
      fun b h1 h2 => if_neg (by omega)
    have hentry := h _ ⟨fatHeader disk, ⟨[], 0, 0, 0⟩⟩ hheader rfl
    rw [fat16GetFatEntry_eq, Nat.cast_inj, fatEntry, hheader] at hentry
    exact hv hentry
  · rintro ⟨hzero, rfl⟩ disk' priv hdisk hpriv
    rw [fat16GetFatEntry_eq, fatEntry, fat16GetFirstFatSector, hpriv, hdisk, hzero]
    rfl

/-- Cluster 2 behind one reserved sector. -/
theorem entryAddressed_small : ¬ EntryAddressed (fatHeader smallDisk) 2 := fun h =>
  absurd ((entryAddressed_iff smallDisk (by decide)).mp h).2 (by decide)

/-- **The wrong entry**: that of cluster 2 is 3, and the driver takes 256. -/
theorem fat16GetFatEntry_misaddressed :
    ¬ ∀ (disk : Memory) (priv : FatPrivate) (cluster : Nat), priv.header = fatHeader disk → 2 ≤ cluster →
      cluster < 2 ^ 16 → fat16GetFatEntry disk priv cluster = fatEntry disk cluster := fun h =>
  absurd (h smallDisk smallPrivate 2 rfl (by decide) (by decide)) (by decide)

/-! ### Following a chain -/

/-- An entry that leads to an ordinary data cluster: not free, reserved, bad or the end. -/
def DataLink (entry : Int) : Prop := 2 ≤ entry ∧ entry < 0xFFF0

/-- After `k` links from `c`, each to a data cluster, comes `d`. -/
inductive Reaches (disk : Memory) (priv : FatPrivate) : Nat → Nat → Nat → Prop where
  | here (c : Nat) : Reaches disk priv 0 c c
  | link {k c d e : Nat} (hentry : fat16GetFatEntry disk priv c = d) (hdata : DataLink d)
      (hrest : Reaches disk priv k d e) : Reaches disk priv (k + 1) c e

/-- Within `k` links from `c` is an entry that leads to no data cluster. -/
inductive Breaks (disk : Memory) (priv : FatPrivate) : Nat → Nat → Prop where
  | here {k c : Nat} (hentry : ¬ DataLink (fat16GetFatEntry disk priv c)) : Breaks disk priv (k + 1) c
  | link {k c d : Nat} (hentry : fat16GetFatEntry disk priv c = d) (hdata : DataLink d)
      (hrest : Breaks disk priv k d) : Breaks disk priv (k + 1) c

/-- A chain that does not break reaches a cluster. -/
theorem breaks_or_reaches (disk : Memory) (priv : FatPrivate) (k c : Nat) :
    Breaks disk priv k c ∨ ∃ d, Reaches disk priv k c d := by
  induction k generalizing c with
  | zero => exact .inr ⟨c, .here c⟩
  | succ k ih =>
    by_cases hdata : DataLink (fat16GetFatEntry disk priv c)
    · have hentry := fat16GetFatEntry_eq disk priv c
      generalize read16 disk _ = d at hentry
      rw [hentry] at hdata
      rcases ih d with hbreaks | ⟨e, hreaches⟩
      · exact .inl (.link hentry hdata hbreaks)
      · exact .inr ⟨e, .link hentry hdata hreaches⟩
    · exact .inl (.here hdata)

/-- A chain that reaches a cluster does not break before it. -/
theorem Reaches.not_breaks {k c d : Nat} (h : Reaches disk priv k c d) : ¬ Breaks disk priv k c := by
  induction h with
  | here c => exact fun hbreaks => nomatch hbreaks
  | link hentry hdata _ ih =>
    intro hbreaks
    cases hbreaks with
    | here hno =>
      rw [hentry] at hno
      exact hno hdata
    | link hentry' _ hrest =>
      rw [hentry, Nat.cast_inj] at hentry'
      subst hentry'
      exact ih hrest

/-- **The chain followed**: the cluster after as many links as there are clusters before the
offset, or an error where the chain breaks before. -/
structure ClusterFollowed (disk : Memory) (priv : FatPrivate) (c offset : Nat) : Prop where
  reached : ∀ d, Reaches disk priv (offset / sizeOfClusterBytes priv) c d →
    fat16GetClusterForOffset disk priv c offset = d
  broken : Breaks disk priv (offset / sizeOfClusterBytes priv) c → fat16GetClusterForOffset disk priv c offset < 0

/-- **A chain is followed exactly when** there is no link to follow, or it breaks. -/
theorem clusterFollowed_iff (disk : Memory) (priv : FatPrivate) {c offset : Nat} (hc : c < 2 ^ 32)
    (hoffset : offset < 2 ^ 31) (hsize : 0 < sizeOfClusterBytes priv) :
    ClusterFollowed disk priv c offset ↔
      (offset < sizeOfClusterBytes priv ∧ c < 2 ^ 31) ∨ Breaks disk priv (offset / sizeOfClusterBytes priv) c := by
  have hget : fat16GetClusterForOffset disk priv c offset =
      fat16ClusterAhead disk priv (offset / sizeOfClusterBytes priv) c := by
    unfold fat16GetClusterForOffset
    rw [u32OfInt_natCast, u32_of_lt (by omega)]
  have hsmall : offset / sizeOfClusterBytes priv = 0 ↔ offset < sizeOfClusterBytes priv := Nat.div_eq_zero_iff_lt hsize
  constructor
  · intro h
    rcases breaks_or_reaches disk priv (offset / sizeOfClusterBytes priv) c with hbreaks | ⟨d, hreaches⟩
    · exact .inr hbreaks
    · -- only a chain without links is right
      have hd := h.reached d hreaches
      rw [hget] at hd
      generalize offset / sizeOfClusterBytes priv = k at *
      cases hreaches with
      | here =>
        refine .inl ⟨hsmall.mp rfl, ?_⟩
        by_contra hhigh
        unfold fat16ClusterAhead s32 at hd
        rw [u32_of_lt hc, if_neg hhigh] at hd
        omega
      | link =>
        rw [fat16ClusterAhead_succ] at hd
        exact absurd hd (by simp only [eio]; omega)
  · rintro (⟨hfirst, hc31⟩ | hbreaks)
    · have hzero := hsmall.mpr hfirst
      refine ⟨fun d hreaches => ?_, fun hbreaks => ?_⟩
      · rw [hzero] at hreaches hget
        cases hreaches
        rw [hget]
        exact s32_of_lt hc31
      · rw [hzero] at hbreaks
        cases hbreaks
    · refine ⟨fun d hreaches => absurd hbreaks hreaches.not_breaks, fun _ => ?_⟩
      rw [hget]
      generalize offset / sizeOfClusterBytes priv = k at *
      cases k with
      | zero => cases hbreaks
      | succ k =>
        rw [fat16ClusterAhead_succ]
        decide

/-- The first cluster of a volume, from its last byte. -/
theorem clusterFollowed_first : ClusterFollowed smallDisk smallPrivate 2 511 :=
  (clusterFollowed_iff smallDisk smallPrivate (by decide) (by decide) (by decide)).mpr (.inl (by decide))

/-- **No link is followed**: the entry of cluster 2 leads to cluster 256, and the driver fails. -/
theorem clusterFollowed_not : ¬ ∀ (disk : Memory) (priv : FatPrivate) (c offset : Nat), c < 2 ^ 32 → offset < 2 ^ 31 →
    0 < sizeOfClusterBytes priv → ClusterFollowed disk priv c offset := by
  intro h
  have hreached := (h smallDisk smallPrivate 2 512 (by decide) (by decide) (by decide)).reached 256
    (.link (by decide) ⟨by decide, by decide⟩ (.here 256))
  exact absurd hreached (by decide)

end BasicOS

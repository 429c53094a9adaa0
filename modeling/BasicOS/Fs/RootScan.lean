import Mathlib.Data.Nat.Count
import BasicOS.Fs.Clusters

/-! The count of the root directory's records.

`fat16_get_total_items_for_directory` reads record after record until one starts with a zero
byte, wherever that is on the disk, and does not count the deleted ones.
`fat16_find_item_in_directory` takes the count for the end of the records, so that each
deleted record in front hides one in use. `rootScanned_iff` says for which root directories
the scan ends inside and hides none. -/
namespace BasicOS
open Lib

variable {disk : Memory}

/-- Where the scan from `pos` finds record `j`. -/
def scanSlot (pos j : Nat) : Nat := u32 (pos + j * sizeofFatDirectoryItem)

/-- Record `j` of the root directory. -/
def rootSlot (disk : Memory) (j : Nat) : Nat :=
  scanSlot (fat16SectorToAbsolute (rootDirSectorPos (fatHeader disk))) j

theorem scanSlot_zero {pos : Nat} (hpos : pos < 2 ^ 32) : scanSlot pos 0 = pos := by
  unfold scanSlot
  rw [Nat.zero_mul, Nat.add_zero, u32_of_lt hpos]

theorem scanSlot_next (pos j : Nat) : scanSlot (u32 (pos + sizeofFatDirectoryItem)) j = scanSlot pos (j + 1) := by
  unfold scanSlot u32
  rw [Nat.mod_add_mod, Nat.succ_mul, Nat.add_assoc, Nat.add_comm sizeofFatDirectoryItem]

/-! ### The end of the scan -/

/-- The first blank record is `z`. -/
structure EndsAt (disk : Memory) (pos z : Nat) : Prop where
  blank : disk (scanSlot pos z) = 0x00
  used : ∀ j, j < z → disk (scanSlot pos j) ≠ 0x00

theorem EndsAt.unique {pos y z : Nat} (hy : EndsAt disk pos y) (hz : EndsAt disk pos z) : y = z := by
  rcases Nat.lt_trichotomy y z with hlt | heq | hlt
  · exact absurd hy.blank (hz.used y hlt)
  · exact heq
  · exact absurd hz.blank (hy.used z hlt)

/-- The ends of a scan that goes on. -/
theorem endsAt_succ {pos z : Nat} (hpos : pos < 2 ^ 32) :
    EndsAt disk pos (z + 1) ↔ disk pos ≠ 0x00 ∧ EndsAt disk (u32 (pos + sizeofFatDirectoryItem)) z := by
  constructor
  · intro h
    have hfirst := h.used 0 (Nat.succ_pos z)
    rw [scanSlot_zero hpos] at hfirst
    refine ⟨hfirst, ?_, fun j hj => ?_⟩
    · rw [scanSlot_next]
      exact h.blank
    · rw [scanSlot_next]
      exact h.used (j + 1) (Nat.succ_lt_succ hj)
  · rintro ⟨hfirst, h⟩
    refine ⟨?_, fun j hj => ?_⟩
    · rw [← scanSlot_next]
      exact h.blank
    · cases j with
      | zero => rwa [scanSlot_zero hpos]
      | succ j =>
        rw [← scanSlot_next]
        exact h.used j (Nat.lt_of_succ_lt_succ hj)

/-- The records in use among the first `n`, if none is blank. -/
def liveCount (disk : Memory) (pos n : Nat) : Nat := Nat.count (fun j => disk (scanSlot pos j) ≠ 0xE5) n

theorem liveCount_succ {pos : Nat} (n : Nat) (hpos : pos < 2 ^ 32) :
    liveCount disk pos (n + 1) =
      (if disk pos = 0xE5 then 0 else 1) + liveCount disk (u32 (pos + sizeofFatDirectoryItem)) n := by
  unfold liveCount
  simp only [Nat.count_succ', scanSlot_next, scanSlot_zero hpos, ite_not]
  exact Nat.add_comm _ _

/-- The loop returns just when one of the records it has turns for is blank, and counts the
records in use in front of it. -/
theorem fat16GetTotalItemsFrom_iff (fuel : Nat) {pos i total : Nat} (hpos : pos < 2 ^ 32) :
    fat16GetTotalItemsFrom disk fuel pos i = some total ↔
      ∃ z, z < fuel ∧ EndsAt disk pos z ∧ total = i + liveCount disk pos z := by
  induction fuel generalizing pos i with
  | zero =>
    refine iff_of_false (fun h => nomatch h) ?_
    rintro ⟨z, hz, _⟩
    exact absurd hz (Nat.not_lt_zero z)
  | succ fuel ih =>
    have hnext := u32_lt (pos + sizeofFatDirectoryItem)
    unfold fat16GetTotalItemsFrom
    simp only
    by_cases hblank : disk pos = 0x00
    · have hends : EndsAt disk pos 0 := ⟨by rw [scanSlot_zero hpos]; exact hblank, fun j hj =>
        absurd hj (Nat.not_lt_zero j)⟩
      rw [if_pos hblank, Option.some.injEq]
      constructor
      · rintro rfl
        exact ⟨0, Nat.succ_pos fuel, hends, rfl⟩
      · rintro ⟨z, _, hz, rfl⟩
        rw [hz.unique hends]
        rfl
    · -- the blank record is one of those behind this one
      have hbehind : (∃ z, z < fuel + 1 ∧ EndsAt disk pos z ∧ total = i + liveCount disk pos z) ↔
          ∃ z, z < fuel ∧ EndsAt disk (u32 (pos + sizeofFatDirectoryItem)) z ∧
            total = i + liveCount disk pos (z + 1) := by
        constructor
        · rintro ⟨z, hz, hends, htotal⟩
          cases z with
          | zero =>
            have hfirst := hends.blank
            rw [scanSlot_zero hpos] at hfirst
            exact absurd hfirst hblank
          | succ z => exact ⟨z, Nat.lt_of_succ_lt_succ hz, ((endsAt_succ hpos).mp hends).2, htotal⟩
        · rintro ⟨z, hz, hends, htotal⟩
          exact ⟨z + 1, Nat.succ_lt_succ hz, (endsAt_succ hpos).mpr ⟨hblank, hends⟩, htotal⟩
      rw [if_neg hblank, hbehind]
      simp only [liveCount_succ _ hpos]
      by_cases hdeleted : disk pos = 0xE5
      · simp only [if_pos hdeleted, Nat.zero_add]
        exact ih hnext
      · simp only [if_neg hdeleted, ← Nat.add_assoc]
        exact ih hnext

/-! ### The scan of the root directory -/

/-- **The scan inside the directory**: it ends after at most as many turns as the root directory
has records, each of which examines one, and every record in front of the end that is not
deleted has a number below the count that lookups go by. -/
def RootScanned (disk : Memory) : Prop :=
  ∃ root, fat16GetRootDirectory disk (fatHeader disk) = some root ∧
    fat16GetTotalItemsFrom disk (fatHeader disk).rootDirectoryEntries (rootSlot disk 0) 0 = some root.total ∧
    ∀ j, j < (fatHeader disk).rootDirectoryEntries → (∀ i, i ≤ j → disk (rootSlot disk i) ≠ 0x00) →
      disk (rootSlot disk j) ≠ 0xE5 → j < root.total

theorem rootSlot_zero (disk : Memory) : rootSlot disk 0 = fat16SectorToAbsolute (rootDirSectorPos (fatHeader disk)) :=
  scanSlot_zero (u32_lt _)

/-- A count that every record in use is below leaves no deleted one in front of it. -/
theorem live_below_count {p : Nat → Prop} [DecidablePred p] {z : Nat} :
    (∀ j, j < z → p j → j < Nat.count p z) ↔ ∀ i j, i < j → j < z → ¬ p i → ¬ p j := by
  constructor
  · intro h i j hij hjz hi hj
    -- as many numbers as the count, all below it, are all there are
    have hsub : (Finset.range z).filter p ⊆ Finset.range (Nat.count p z) := by
      intro k hk
      obtain ⟨hkz, hpk⟩ := Finset.mem_filter.mp hk
      exact Finset.mem_range.mpr (h k (Finset.mem_range.mp hkz) hpk)
    have hall := Finset.eq_of_subset_of_card_le hsub (by rw [Finset.card_range, Nat.count_eq_card_filter_range])
    have hmem : i ∈ (Finset.range z).filter p := by
      rw [hall, Finset.mem_range]
      exact Nat.lt_trans hij (h j hjz hj)
    exact hi (Finset.mem_filter.mp hmem).2
  · intro h j hjz hj
    have hfront : Nat.count p (j + 1) = j + 1 := by
      refine Nat.count_iff_forall.mpr fun i hi => ?_
      by_contra hno
      rcases Nat.lt_succ_iff_lt_or_eq.mp hi with hlt | rfl
      · exact h i j hlt hjz hno hj
      · exact hno hj
    have hmono := Nat.count_monotone p (Nat.succ_le_of_lt hjz)
    rw [Nat.succ_eq_add_one, hfront] at hmono
    exact hmono

/-- **The scan stays inside exactly when** the root directory has an end marker and no deleted
record in front of one in use. -/
theorem rootScanned_iff (disk : Memory) :
    RootScanned disk ↔ ∃ z, z < (fatHeader disk).rootDirectoryEntries ∧ EndsAt disk (rootSlot disk 0) z ∧
      ∀ i j, i < j → j < z → disk (rootSlot disk i) = 0xE5 → disk (rootSlot disk j) = 0xE5 := by
  have hstart : rootSlot disk 0 < 2 ^ 32 := u32_lt _
  have hslot : ∀ j, scanSlot (rootSlot disk 0) j = rootSlot disk j := fun j => by rw [rootSlot_zero]; rfl
  -- the records up to an end that is not blank lie before it
  have hbefore : ∀ {z}, EndsAt disk (rootSlot disk 0) z → ∀ j,
      (∀ i, i ≤ j → disk (rootSlot disk i) ≠ 0x00) ↔ j < z := by
    intro z hends j
    constructor
    · intro hused
      by_contra hge
      have hblank := hends.blank
      rw [hslot] at hblank
      exact hused z (Nat.le_of_not_lt hge) hblank
    · intro hj i hi
      rw [← hslot]
      exact hends.used i (Nat.lt_of_le_of_lt hi hj)
  -- what is below the count, in the terms of the disk
  have hcount : ∀ {z}, (∀ j, j < z → disk (rootSlot disk j) ≠ 0xE5 → j < liveCount disk (rootSlot disk 0) z) ↔
      ∀ i j, i < j → j < z → disk (rootSlot disk i) = 0xE5 → disk (rootSlot disk j) = 0xE5 := by
    intro z
    unfold liveCount
    simp only [hslot]
    rw [live_below_count]
    simp only [not_not]
  constructor
  · rintro ⟨root, _, hscan, hbelow⟩
    obtain ⟨z, hz, hends, htotal⟩ := (fat16GetTotalItemsFrom_iff _ hstart).mp hscan
    rw [Nat.zero_add] at htotal
    refine ⟨z, hz, hends, hcount.mp fun j hj hlive => ?_⟩
    rw [← htotal]
    exact hbelow j (Nat.lt_trans hj hz) ((hbefore hends j).mpr hj) hlive
  · rintro ⟨z, hz, hends, htidy⟩
    have hscan : ∀ fuel, z < fuel →
        fat16GetTotalItemsFrom disk fuel (rootSlot disk 0) 0 = some (liveCount disk (rootSlot disk 0) z) :=
      fun fuel hfuel => (fat16GetTotalItemsFrom_iff fuel hstart).mpr ⟨z, hfuel, hends, (Nat.zero_add _).symm⟩
    have hentries := rootDirectoryEntries_lt disk
    have hdirectory : fat16GetTotalItemsForDirectory disk (rootDirSectorPos (fatHeader disk)) =
        some (liveCount disk (rootSlot disk 0) z) := by
      unfold fat16GetTotalItemsForDirectory
      rw [← rootSlot_zero]
      exact hscan _ (by omega)
    refine ⟨_, Option.bind_eq_some_iff.mpr ⟨_, hdirectory, rfl⟩, hscan _ hz, fun j _ hused hlive => ?_⟩
    exact hcount.mpr htidy j ((hbefore hends j).mp hused) hlive

/-- **A record in use behind a deleted one** has a number the lookups do not get to. -/
theorem rootScanned_not : ¬ ∀ disk, RootScanned disk := by
  intro h
  obtain ⟨root, _, hscan, hbelow⟩ := h (twoRecordDisk 0xE5)
  have hone : some 1 = some root.total := Eq.trans (by decide +kernel) hscan
  have hlt := hbelow 1 (by decide) (by decide) (by decide)
  rw [← Option.some_inj.mp hone] at hlt
  exact absurd hlt (by decide)

end BasicOS

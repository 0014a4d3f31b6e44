import LightningRecords.Store.Config
import Mathlib.Order.Lattice

namespace LightningRecords

theorem toNat_le_maxSize (size : UInt64) : size.toNat ≤ maxSize := Nat.le_of_lt_succ size.toNat_lt

theorem toNat_clampSize (n : Nat) : (clampSize n).toNat = min n maxSize := by
  rw [clampSize, UInt64.toNat_ofNat']
  have hmax : maxSize = 2 ^ 64 - 1 := rfl
  omega

section Rounding

theorem toNat_roundToGranule (size : UInt64) :
    (roundToGranule size).toNat =
      min ((size.toNat + (mapGranule - 1)) / mapGranule * mapGranule) maxSize :=
  toNat_clampSize _

theorem le_roundToGranule (size : UInt64) : size.toNat ≤ (roundToGranule size).toNat := by
  have hmax := size.toNat_lt
  rw [toNat_roundToGranule]
  simp only [maxSize, mapGranule]
  omega

-- Whole granules are not rounded, and do not take part in rounding.
theorem roundToGranule_shift {base more : Nat} (h : mapGranule ∣ base) :
    (base + more + (mapGranule - 1)) / mapGranule * mapGranule =
      base + (more + (mapGranule - 1)) / mapGranule * mapGranule := by
  obtain ⟨count, rfl⟩ := h
  have hpos : 0 < mapGranule := by decide
  rw [Nat.add_assoc, Nat.mul_add_div hpos, Nat.add_mul, Nat.mul_comm count]

-- The largest multiple of the granule among the sizes.
def lastMultiple : Nat := maxSize + 1 - mapGranule

variable {size : UInt64}

-- Beyond the last multiple there is only the largest size to be had.
theorem toNat_roundToGranule_of_lt (h : lastMultiple < size.toNat) :
    (roundToGranule size).toNat = maxSize := by
  rw [toNat_roundToGranule]
  simp only [lastMultiple, maxSize, mapGranule] at h ⊢
  omega

theorem dvd_roundToGranule_iff :
    mapGranule ∣ (roundToGranule size).toNat ↔ size.toNat ≤ lastMultiple := by
  constructor
  · intro haligned
    refine Nat.le_of_not_lt fun hbeyond => ?_
    rw [toNat_roundToGranule_of_lt hbeyond] at haligned
    exact absurd haligned (by decide)
  · intro h
    have hround : (roundToGranule size).toNat =
        (size.toNat + (mapGranule - 1)) / mapGranule * mapGranule := by
      rw [toNat_roundToGranule]
      simp only [lastMultiple, maxSize, mapGranule] at h ⊢
      omega
    rw [hround]
    exact Nat.dvd_mul_left _ _

theorem dvd_roundToGranule (h : (roundToGranule size).toNat < maxSize) :
    mapGranule ∣ (roundToGranule size).toNat := by
  rw [dvd_roundToGranule_iff]
  refine Nat.le_of_not_lt fun hbeyond => ?_
  rw [toNat_roundToGranule_of_lt hbeyond] at h
  exact Nat.lt_irrefl _ h

-- What is asked for when so many bytes are needed: a multiple of the granule that has room
-- for them, and if there is none, the largest size.
structure AsksFor (needed : Nat) (size : UInt64) : Prop where
  aligned_iff : mapGranule ∣ size.toNat ↔ needed ≤ lastMultiple
  clamped : lastMultiple < needed → size.toNat = maxSize
  room : min needed maxSize ≤ size.toNat

theorem asksFor_roundToGranule (needed : Nat) :
    AsksFor needed (roundToGranule (clampSize needed)) := by
  have hlast : lastMultiple < maxSize := by decide
  have hclamp := toNat_clampSize needed
  refine ⟨?_, fun h => toNat_roundToGranule_of_lt (by omega), ?_⟩
  · rw [dvd_roundToGranule_iff]
    omega
  · rw [← hclamp]
    exact le_roundToGranule (clampSize needed)

end Rounding

namespace Config

variable {config : Config} {current fileSize : UInt64}

theorem growthIncrement_pos (h : config.validate = .ok ()) : 0 < config.growthIncrement.toNat := by
  unfold validate at h
  split at h
  · cases h
  · split at h
    · cases h
    · simp only [mapGranule] at *
      omega

theorem mapSizeAtOpen_eq (config : Config) (fileSize : UInt64) :
    config.mapSizeAtOpen fileSize = roundToGranule (clampSize
      (max config.initialMapSize.toNat (fileSize.toNat + config.growthIncrement.toNat))) := by
  rw [mapSizeAtOpen]
  congr 1
  apply UInt64.toNat_inj.mp
  have hmax := toNat_le_maxSize config.initialMapSize
  rw [UInt64.toNat_max, above, toNat_clampSize, toNat_clampSize]
  omega

theorem grownMapSize_eq (config : Config) (current fileSize : UInt64) :
    config.grownMapSize current fileSize = roundToGranule (clampSize
      (max current.toNat fileSize.toNat + config.growthIncrement.toNat)) := by
  rw [grownMapSize, above, UInt64.toNat_max]

theorem asksFor_mapSizeAtOpen (config : Config) (fileSize : UInt64) :
    AsksFor (max config.initialMapSize.toNat (fileSize.toNat + config.growthIncrement.toNat))
      (config.mapSizeAtOpen fileSize) := by
  rw [mapSizeAtOpen_eq]
  exact asksFor_roundToGranule _

theorem initialMapSize_le (config : Config) (fileSize : UInt64) :
    config.initialMapSize ≤ config.mapSizeAtOpen fileSize := by
  have hroom := (config.asksFor_mapSizeAtOpen fileSize).room
  have hmax := toNat_le_maxSize config.initialMapSize
  rw [UInt64.le_iff_toNat_le]
  omega

theorem min_le_mapSizeAtOpen (config : Config) (fileSize : UInt64) :
    min (fileSize.toNat + config.growthIncrement.toNat) maxSize ≤
      (config.mapSizeAtOpen fileSize).toNat := by
  have hroom := (config.asksFor_mapSizeAtOpen fileSize).room
  omega

theorem asksFor_grownMapSize (config : Config) (current fileSize : UInt64) :
    AsksFor (max current.toNat fileSize.toNat + config.growthIncrement.toNat)
      (config.grownMapSize current fileSize) := by
  rw [grownMapSize_eq]
  exact asksFor_roundToGranule _

theorem min_le_grownMapSize (config : Config) (current fileSize : UInt64) :
    min (current.toNat + config.growthIncrement.toNat) maxSize ≤
      (config.grownMapSize current fileSize).toNat := by
  have hroom := (config.asksFor_grownMapSize current fileSize).room
  omega

-- Short of the largest size there is, a map grows by an increment at least.
theorem add_growthIncrement_le (h : (config.grownMapSize current fileSize).toNat < maxSize) :
    current.toNat + config.growthIncrement.toNat ≤
      (config.grownMapSize current fileSize).toNat := by
  have hgain := config.min_le_grownMapSize current fileSize
  omega

theorem le_grownMapSize (config : Config) (current fileSize : UInt64) :
    current.toNat ≤ (config.grownMapSize current fileSize).toNat := by
  have hgain := config.min_le_grownMapSize current fileSize
  have hmax := toNat_le_maxSize current
  omega

theorem lt_grownMapSize (hconfig : config.validate = .ok ()) (h : current.toNat < maxSize) :
    current < config.grownMapSize current fileSize := by
  have hpositive := growthIncrement_pos hconfig
  have hgain := config.min_le_grownMapSize current fileSize
  rw [UInt64.lt_iff_toNat_lt]
  omega

-- What the data file holds makes no difference as long as the map holds it.
theorem grownMapSize_of_le (hfile : fileSize ≤ current) :
    config.grownMapSize current fileSize = roundToGranule (config.above current) := by
  have hused : max current fileSize = current := by
    rw [← UInt64.toNat_inj, UInt64.toNat_max]
    exact Nat.max_eq_left (UInt64.le_iff_toNat_le.mp hfile)
  rw [grownMapSize, hused]

-- A map of whole granules grows by as many as the increment takes.
theorem toNat_grownMapSize (haligned : mapGranule ∣ current.toNat) (hfile : fileSize ≤ current)
    (hsize : current.toNat + (roundToGranule config.growthIncrement).toNat < maxSize) :
    (config.grownMapSize current fileSize).toNat =
      current.toNat + (roundToGranule config.growthIncrement).toNat := by
  have hused : max current.toNat fileSize.toNat = current.toNat :=
    Nat.max_eq_left (UInt64.le_iff_toNat_le.mp hfile)
  have hincrement := le_roundToGranule config.growthIncrement
  have hround := toNat_roundToGranule config.growthIncrement
  have hsum : (clampSize (current.toNat + config.growthIncrement.toNat)).toNat =
      current.toNat + config.growthIncrement.toNat := by
    rw [toNat_clampSize]
    omega
  rw [grownMapSize_eq, hused, toNat_roundToGranule, hsum, roundToGranule_shift haligned]
  omega

end Config

end LightningRecords

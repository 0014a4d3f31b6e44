namespace LightningRecords

-- The largest 64-bit number.
def maxSize : Nat := 0xFFFFFFFFFFFFFFFF

-- Sums and products of sizes stop at the largest one.
def clampSize (n : Nat) : UInt64 := UInt64.ofNat (min n maxSize)

-- Map sizes are asked for in steps of this many bytes.
def mapGranule : Nat := 64 * 1024

-- Memory is mapped in pages.
def pageSize : Nat := 4096

-- An assumption about the operating system: no more memory is mapped at a time than
-- the largest gap in the addresses of a process, which is what lies below the program,
-- at two thirds of them.
def maxMapping : Nat := 0x800000000000 / 3 * 2

-- The next multiple of the granule.
def roundToGranule (size : UInt64) : UInt64 :=
  clampSize ((size.toNat + (mapGranule - 1)) / mapGranule * mapGranule)

-- How the environment of a directory is set up.
structure Config where
  initialMapSize : UInt64
  growthIncrement : UInt64
  maxTables : UInt32
  maxReaders : UInt32
deriving DecidableEq, Repr

-- Why a setting is refused.
inductive ConfigError where
  | initialMapSize
  | growthIncrement
  | maxTables
  | maxReaders
deriving DecidableEq, Repr

def ConfigError.message : ConfigError → String
  | .initialMapSize => "initial_map_size must be >= 64KB"
  | .growthIncrement => "growth_increment must be >= 64KB"
  | .maxTables => "max_tables must be in [1, 4096]"
  | .maxReaders => "max_readers must be > 0"

namespace Config

def mebibytes (n : Nat) : UInt64 := UInt64.ofNat (n * 1024 * 1024)

def server : Config := ⟨mebibytes 1024, mebibytes 100, 256, 512⟩

def desktop : Config := ⟨mebibytes 256, mebibytes 32, 256, 126⟩

def minimal : Config := ⟨mebibytes 8, mebibytes 4, 64, 32⟩

instance : Inhabited Config := ⟨server⟩

def validate (config : Config) : Except ConfigError Unit :=
  if config.initialMapSize.toNat < mapGranule then .error .initialMapSize
  else if config.growthIncrement.toNat < mapGranule then .error .growthIncrement
  else if config.maxTables = 0 ∨ 4096 < config.maxTables then .error .maxTables
  else if config.maxReaders = 0 then .error .maxReaders
  else .ok ()

-- One increment above a size.
def above (config : Config) (size : UInt64) : UInt64 :=
  clampSize (size.toNat + config.growthIncrement.toNat)

-- Room for what the data file holds and one increment, and never less than the
-- initial size.
def mapSizeAtOpen (config : Config) (fileSize : UInt64) : UInt64 :=
  roundToGranule (max config.initialMapSize (config.above fileSize))

-- A map that was too small gets one increment more.
def grownMapSize (config : Config) (current fileSize : UInt64) : UInt64 :=
  roundToGranule (config.above (max current fileSize))

end Config

end LightningRecords

import LightningRecords.Proofs.Store.Growth
import LightningRecords.Store.Host

namespace LightningRecords

-- A call to grow a map: the size at which its caller saw the map, and the size of the data
-- file when the call is obeyed.
structure GrowthCall where
  observed : UInt64
  fileSize : UInt64

namespace Config

variable {config : Config} {size : UInt64} {call : GrowthCall}

-- How large a call leaves the map, which may have grown since the caller saw it.
def regrown (config : Config) (size : UInt64) (call : GrowthCall) : UInt64 :=
  if call.observed < size then size else config.grownMapSize size call.fileSize

theorem regrown_stale (h : call.observed < size) : config.regrown size call = size := if_pos h

theorem regrown_current (h : size ≤ call.observed) :
    config.regrown size call = config.grownMapSize size call.fileSize :=
  if_neg (UInt64.not_lt.mpr h)

theorem le_regrown (config : Config) (size : UInt64) (call : GrowthCall) :
    size ≤ config.regrown size call := by
  unfold regrown
  split
  · exact UInt64.le_refl size
  · exact config.le_grownMapSize size call.fileSize

-- How large calls, one after the other, leave a map that was opened at some size.
def mapSizeAfter (config : Config) (opened : UInt64) (calls : List GrowthCall) : UInt64 :=
  calls.foldl config.regrown opened

theorem mapSizeAfter_append (config : Config) (opened : UInt64) (calls later : List GrowthCall) :
    config.mapSizeAfter opened (calls ++ later) =
      config.mapSizeAfter (config.mapSizeAfter opened calls) later :=
  List.foldl_append

theorem mapSizeAfter_concat (config : Config) (opened : UInt64) (calls : List GrowthCall)
    (call : GrowthCall) : config.mapSizeAfter opened (calls ++ [call]) =
      config.regrown (config.mapSizeAfter opened calls) call :=
  config.mapSizeAfter_append opened calls [call]

theorem le_mapSizeAfter (config : Config) (opened : UInt64) (calls : List GrowthCall) :
    opened ≤ config.mapSizeAfter opened calls := by
  induction calls generalizing opened with
  | nil => exact UInt64.le_refl opened
  | cons call later ih => exact UInt64.le_trans (config.le_regrown opened call) (ih _)

end Config

namespace Environment

-- What may happen to an opening: it is given a command, or is to grow its map by one who
-- saw it at some size.
def meet (e : Environment) : Command ⊕ UInt64 → Environment
  | .inl c => (e.obey c).2
  | .inr observed => e.grow observed

def meetAll (e : Environment) (events : List (Command ⊕ UInt64)) : Environment :=
  events.foldl meet e

theorem grow_eq_resized (e : Environment) (observed : UInt64) :
    e.grow observed = e.resized (e.config.regrown e.mapSize ⟨observed, e.fileSize⟩) := by
  unfold grow Config.regrown
  split <;> rfl

theorem meet_resizes (e : Environment) (event : Command ⊕ UInt64) :
    (e.meet event).config = e.config ∧
      ∃ calls, (e.meet event).mapSize = e.config.mapSizeAfter e.mapSize calls := by
  cases event with
  | inl c =>
    obtain ⟨hconfig, _, hsize⟩ := obey_resizes (Prod.mk.eta (p := e.obey c)).symm
    refine ⟨hconfig, ?_⟩
    rcases hsize with hsame | hgrown
    · exact ⟨[], hsame⟩
    · let call : GrowthCall := ⟨e.mapSize, e.fileSize⟩
      have hcurrent : e.mapSize ≤ call.observed := UInt64.le_refl e.mapSize
      refine ⟨[call], hgrown.trans ?_⟩
      exact (Config.regrown_current hcurrent).symm
  | inr observed =>
    rw [meet, grow_eq_resized]
    exact ⟨rfl, [⟨observed, e.fileSize⟩], rfl⟩

-- By induction over what happens: the calls of the first event, then those of the others.
theorem meetAll_resizes (e : Environment) (events : List (Command ⊕ UInt64)) :
    (e.meetAll events).config = e.config ∧
      ∃ calls, (e.meetAll events).mapSize = e.config.mapSizeAfter e.mapSize calls := by
  induction events generalizing e with
  | nil => exact ⟨rfl, [], rfl⟩
  | cons event rest ih =>
    obtain ⟨hconfig, calls, hsize⟩ := e.meet_resizes event
    obtain ⟨hlater, more, hmore⟩ := ih (e.meet event)
    refine ⟨hlater.trans hconfig, calls ++ more, ?_⟩
    rw [Config.mapSizeAfter_append, ← hsize, ← hconfig]
    exact hmore

end Environment

-- The map of an opening has room at first for the initial size, and for the data file and
-- one increment. Whenever it is grown by one who saw it as it is, it gains an increment, and
-- one who saw it at a smaller size leaves it alone. Sums stop at the largest size, and a map
-- that has it is not larger when it is grown. Up to the last multiple of the granule, and no
-- further, the sizes that are asked for are multiples of it.
theorem map_sizes_grow (config : Config) (fileSize : UInt64) (tables : Tables) (capacity : Capacity)
    (hconfig : config.validate = .ok ()) :
    let start := Environment.start config fileSize tables capacity
    let opened := start.mapSize
    let size := config.mapSizeAfter opened
    let increment := config.growthIncrement.toNat
    (AsksFor (max config.initialMapSize.toNat (fileSize.toNat + increment)) opened ∧
      config.initialMapSize ≤ opened ∧ min (fileSize.toNat + increment) maxSize ≤ opened.toNat) ∧
    (∀ calls call, size calls ≤ call.observed →
      let grown := size (calls ++ [call])
      AsksFor (max (size calls).toNat call.fileSize.toNat + increment) grown ∧
      min ((size calls).toNat + increment) maxSize ≤ grown.toNat ∧
      ((size calls).toNat < maxSize → size calls < grown)) ∧
    (∀ calls call, call.observed < size calls → size (calls ++ [call]) = size calls) ∧
    (∀ calls later, size calls ≤ size (calls ++ later)) ∧
    ∀ events, let e := start.meetAll events
      (∃ calls, e.mapSize = size calls) ∧
      ∀ observed, e.grow observed =
        e.resized (config.regrown e.mapSize ⟨observed, e.fileSize⟩) := by
  intro start opened size increment
  have hconcat (calls : List GrowthCall) (call : GrowthCall) :
      size (calls ++ [call]) = config.regrown (size calls) call :=
    config.mapSizeAfter_concat opened calls call
  refine ⟨⟨?_, ?_, ?_⟩, fun calls call hcurrent => ?_, fun calls call hstale => ?_,
    fun calls later => ?_, fun events => ⟨?_, fun observed => ?_⟩⟩
  · exact config.asksFor_mapSizeAtOpen fileSize
  · exact config.initialMapSize_le fileSize
  · exact config.min_le_mapSizeAtOpen fileSize
  · rw [hconcat, Config.regrown_current hcurrent]
    exact ⟨config.asksFor_grownMapSize _ _, config.min_le_grownMapSize _ _,
      Config.lt_grownMapSize hconfig⟩
  · rw [hconcat, Config.regrown_stale hstale]
  · simp only [size, Config.mapSizeAfter_append]
    exact config.le_mapSizeAfter _ later
  · exact (start.meetAll_resizes events).2
  · rw [Environment.grow_eq_resized, (start.meetAll_resizes events).1]
    rfl

-- A file that has grown beyond the map, and a call that comes too late.
theorem map_sizes_grow_late :
    let config : Config := ⟨100000, 70000, 4, 1⟩
    let opened := (Environment.start config 500000 ∅).mapSize
    let first : GrowthCall := ⟨opened, 600000⟩
    let late : GrowthCall := ⟨opened, 900000⟩
    let grown := config.mapSizeAfter opened [first]
    mapGranule ∣ grown.toNat ∧ opened.toNat + 70000 ≤ grown.toNat ∧ opened < grown ∧
      config.mapSizeAfter opened [first, late] = grown := by
  intro config opened first late grown
  obtain ⟨_, hcurrent, hstale, _⟩ := map_sizes_grow config 500000 ∅ .byWeight (by decide)
  obtain ⟨hasked, hgain, hlarger⟩ := hcurrent [] first (by decide +kernel)
  refine ⟨hasked.aligned_iff.mpr (by decide +kernel), ?_, hlarger (by decide +kernel),
    hstale [first] late (by decide +kernel)⟩
  exact le_trans (by decide +kernel) hgain

-- A valid initial size above the last multiple of the granule. The size that is asked for
-- is no multiple and cannot grow, and the engine refuses it.
theorem map_size_uneven :
    let config : Config := ⟨0xFFFFFFFFFFFF0001, 65536, 64, 32⟩
    let e := Environment.start config 0 ∅
    let h : Host := { tree := { root := "/tmp" } }
    config.validate = .ok () ∧ ¬mapGranule ∣ e.mapSize.toNat ∧ e.grow e.mapSize = e ∧
      (h.launch ["db"] config).1 =
        .error (.engine "open" (.unevenMapSize 0xFFFFFFFFFFFFFFFF)) := by
  intro config e h
  have hgrown : e.config.grownMapSize e.mapSize e.fileSize = e.mapSize := by decide +kernel
  have hfiles : Host.openFiles h.tree ["db"] (h.fromRest ["db"] config).mapSize =
      (.error (.unevenMapSize 0xFFFFFFFFFFFFFFFF), h.tree) := by decide +kernel
  refine ⟨by decide +kernel, by decide +kernel, ?_, ?_⟩
  · rw [e.grow_eq, hgrown]
  · simp only [Host.launch, hfiles, Host.conclude]

end LightningRecords

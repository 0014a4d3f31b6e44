import LightningRecords.Procedure.Retry
import LightningRecords.Proofs.Store.Seats
import Mathlib.Algebra.Order.Floor.Div

namespace LightningRecords

-- The name under which a command reports its failures.
def Command.operation : Command → String
  | .get .. => "get"
  | .put .. => "put"
  | .update .. => "update"
  | .remove .. => "remove"
  | .query .. => "query"
  | .length _ | .stats _ => "len"

namespace Environment

variable {e e' : Environment} {table : String} {key : Key} {record : Record}

section Stores

variable {size ample : UInt64} {changes : Changes} {fresh : Option (List String)}
  {stored : Option Record} {found : Record} {expected : Option Record}

-- The size that a map of this size grows to.
def grownFrom (e : Environment) (size : UInt64) : UInt64 :=
  e.config.grownMapSize size (e.resized size).fileSize

theorem grow_resized (e : Environment) (size : UInt64) :
    (e.resized size).grow (e.resized size).mapSize = e.resized (e.grownFrom size) := by
  rw [grow_eq]
  rfl

theorem isFullFor_resized (hrule : e.capacity.IsByLength) (size : UInt64) :
    (e.resized size).IsFullFor table key record ↔ size.toNat < record.encode.length :=
  isFullFor_iff hrule

-- What a command does on a map of any size, if what it has to store takes this many
-- bytes: it stores them if the map is as large, or else the map grows and nothing
-- else is changed.
structure Stores (e : Environment) (c : Command) (length : Nat) (result : c.Result)
    (e' : Environment) : Prop where
  fits : ∀ size : UInt64, length ≤ size.toNat →
    (e.resized size).obey c = (.ok result, e'.resized size)
  full : ∀ size : UInt64, size.toNat < length →
    (e.resized size).obey c =
      (.error (.capacityExhausted c.operation (e.grownFrom size)), e.resized (e.grownFrom size))

theorem stores_put (hrule : e.capacity.IsByLength) (hvalid : checkTable table = .ok ())
    (hroom : e.HasRoom table) (hheld : e.held table key = .ok stored)
    (hfresh : ∀ found ∈ stored, checkFresh table (fresh.getD []) found = .ok ()) :
    e.Stores (.put table key record fresh) record.encode.length ()
      (e.deposit table key record) where
  fits := by
    intro size hfits
    have hput : (e.resized size).put table key record fresh = _ :=
      put_eq_deposit hvalid hroom hheld hfresh fun hfull =>
        Nat.not_lt.mpr hfits ((isFullFor_resized hrule size).mp hfull)
    rwa [deposit_resized] at hput
  full := by
    intro size hfull
    have hput : (e.resized size).put table key record fresh = _ :=
      put_of_full hvalid hroom hheld hfresh ((isFullFor_resized hrule size).mpr hfull)
    rwa [grow_resized] at hput

theorem stores_update (hrule : e.capacity.IsByLength) (hvalid : checkTable table = .ok ())
    (hroom : e.HasRoom table)
    (hheld : e.held table key = .ok (some found)) (hexpected : expected.bind found.mismatch? = none)
    (happly : changes.apply found = .ok record) :
    e.Stores (.update table key changes expected) record.encode.length record
      (e.deposit table key record) where
  fits := by
    intro size hfits
    have hupdate : (e.resized size).update table key changes expected = _ :=
      update_eq_deposit hvalid hroom hheld hexpected happly fun hfull =>
        Nat.not_lt.mpr hfits ((isFullFor_resized hrule size).mp hfull)
    rwa [deposit_resized] at hupdate
  full := by
    intro size hfull
    have hupdate : (e.resized size).update table key changes expected = _ :=
      update_of_full hvalid hroom hheld hexpected happly ((isFullFor_resized hrule size).mpr hfull)
    rwa [grow_resized] at hupdate

theorem mismatch?_of_checkExpected (h : checkExpected table expected found = .ok ()) :
    expected.bind found.mismatch? = none := by
  unfold checkExpected at h
  split at h
  · cases h
  · assumption

-- A write that is done on an ample map is one that only the size of the map stops.
theorem stores_of_stored? {c : Command} (hrule : e.capacity.IsByLength)
    (h : c.stored? ((e.resized ample).obey c).1 = some (table, key, record)) :
    record.encode.length ≤ ample.toNat ∧
      ∃ result e', e.Stores c record.encode.length result e' := by
  cases hresult : (e.resized ample).obey c with
  | mk reply after =>
    rw [hresult] at h
    cases c with
    | put other otherKey written fresh =>
      cases reply with
      | error error => cases h
      | ok =>
        cases h
        obtain ⟨hwrites, stored, hheld, hfresh⟩ := put_eq_ok hresult
        have hvalid := checkTable_of_checked hresult
        have hroom : (e.resized ample).HasRoom table := hasRoom_of_put hresult
        exact ⟨hwrites.fits, (), _, stores_put hrule hvalid hroom hheld hfresh⟩
    | update other otherKey changes expected =>
      cases reply with
      | error error => cases h
      | ok written =>
        cases h
        obtain ⟨hwrites, found, hheld, hexpected, happly⟩ := update_eq_ok hresult
        have hvalid := checkTable_of_checked hresult
        have hmatches := mismatch?_of_checkExpected hexpected
        have hroom : (e.resized ample).HasRoom table := hasRoom_of_update hresult
        exact ⟨hwrites.fits, _, _, stores_update hrule hvalid hroom hheld hmatches happly⟩
    | get | remove | query | length | stats => cases h

end Stores

section Rounds

variable {c : Command} {length growths rounds : Nat} {result : c.Result} {ample : UInt64}

-- What a map grows by, in whole granules.
def growth (e : Environment) : Nat := (roundToGranule e.config.growthIncrement).toNat

-- The size of the map after so many growths.
def sizeAfter (e : Environment) (growths : Nat) : UInt64 :=
  UInt64.ofNat (e.mapSize.toNat + growths * e.growth)

theorem toNat_sizeAfter (h : e.mapSize.toNat + growths * e.growth < maxSize) :
    (e.sizeAfter growths).toNat = e.mapSize.toNat + growths * e.growth := by
  rw [sizeAfter, UInt64.toNat_ofNat_of_lt' (h.trans (by decide))]

theorem sizeAfter_zero (e : Environment) : e.sizeAfter 0 = e.mapSize := by
  rw [sizeAfter, Nat.zero_mul, Nat.add_zero, UInt64.ofNat_toNat]

theorem grownFrom_sizeAfter (haligned : mapGranule ∣ e.mapSize.toNat)
    (hsize : e.mapSize.toNat + (growths + 1) * e.growth < maxSize) :
    e.grownFrom (e.sizeAfter growths) = e.sizeAfter (growths + 1) := by
  have hgrown := toNat_sizeAfter hsize
  rw [Nat.add_mul, Nat.one_mul] at hsize hgrown
  have hsofar : (e.sizeAfter growths).toNat = e.mapSize.toNat + growths * e.growth :=
    toNat_sizeAfter (by omega)
  have hgrowth : mapGranule ∣ e.growth := dvd_roundToGranule (by rw [growth] at hsize; omega)
  have hcurrent : mapGranule ∣ (e.sizeAfter growths).toNat := by
    rw [hsofar]
    exact Nat.dvd_add haligned (hgrowth.mul_left growths)
  have hfile := (e.resized (e.sizeAfter growths)).fileSize_le
  have hroom : (e.sizeAfter growths).toNat + e.growth < maxSize := by omega
  apply UInt64.toNat_inj.mp
  rw [grownFrom, Config.toNat_grownMapSize hcurrent hfile hroom, hgrown, hsofar, growth]
  omega

-- How often a command fails for want of room, through which stores, and what it comes
-- to in the end.
structure Outgrows (c : Command) (stage : Nat → Environment) (rounds : Nat) (result : c.Result)
    (after : Environment) : Prop where
  fails : ∀ i < rounds, (stage i).obey c =
    (.error (.capacityExhausted c.operation (stage (i + 1)).mapSize), stage (i + 1))
  ends : (stage rounds).obey c = (.ok result, after)

theorem Stores.outgrows (h : e.Stores c length result e') (haligned : mapGranule ∣ e.mapSize.toNat)
    (hsize : e.mapSize.toNat + rounds * e.growth < maxSize)
    (hrounds : ∀ i, i < rounds ↔ e.mapSize.toNat + i * e.growth < length) :
    Outgrows c (fun i => e.resized (e.sizeAfter i)) rounds result
      (e'.resized (e.sizeAfter rounds)) where
  fails := by
    intro i hi
    have hless : (i + 1) * e.growth ≤ rounds * e.growth := Nat.mul_le_mul_right _ hi
    have hwithin : e.mapSize.toNat + (i + 1) * e.growth < maxSize := by omega
    have hsofar : (e.sizeAfter i).toNat = e.mapSize.toNat + i * e.growth := by
      rw [Nat.add_mul] at hwithin
      exact toNat_sizeAfter (by omega)
    have hfull : (e.sizeAfter i).toNat < length := hsofar ▸ (hrounds i).mp hi
    simp only [h.full _ hfull, grownFrom_sizeAfter haligned hwithin]
    rfl
  ends := by
    have hfits : ¬e.mapSize.toNat + rounds * e.growth < length := fun hless =>
      Nat.lt_irrefl _ ((hrounds rounds).mpr hless)
    apply h.fits
    rw [toNat_sizeAfter hsize]
    exact Nat.le_of_not_lt hfits

-- The rounds are as many increments as the record is larger than the map, and a part of an
-- increment counts as one.
theorem outgrows_of_stored? (hrule : e.capacity.IsByLength)
    (haligned : mapGranule ∣ e.mapSize.toNat) (hgrowth : 0 < e.growth)
    (hstored : c.stored? ((e.resized ample).obey c).1 = some (table, key, record))
    (hrounds : rounds = (record.encode.length - e.mapSize.toNat) ⌈/⌉ e.growth)
    (hsize : e.mapSize.toNat + rounds * e.growth < maxSize) :
    ∃ (result : c.Result) (after : Environment),
      (e.resized ample).obey c = (.ok result, after.resized ample) ∧
      Outgrows c (fun i => e.resized (e.sizeAfter i)) rounds result
        (after.resized (e.sizeAfter rounds)) := by
  obtain ⟨hample, result, after, hstores⟩ := stores_of_stored? hrule hstored
  refine ⟨result, after, hstores.fits ample hample, hstores.outgrows haligned hsize fun i => ?_⟩
  have hcount : rounds ≤ i ↔ record.encode.length - e.mapSize.toNat ≤ e.growth * i := by
    rw [hrounds]
    exact ceilDiv_le_iff_le_mul hgrowth
  rw [Nat.mul_comm] at hcount
  omega

namespace Outgrows

variable {stage : Nat → Environment} {after : Environment}

-- By induction over the commands given: each of them fails once.
theorem obeyAll (h : Outgrows c stage rounds result after) {i : Nat} (hi : i ≤ rounds) :
    (stage 0).obeyAll (List.replicate i c) = stage i := by
  induction i with
  | zero => rfl
  | succ i ih =>
    rw [List.replicate_succ', Environment.obeyAll, List.foldl_append]
    change ((Environment.obeyAll (stage 0) (List.replicate i c)).obey c).2 = stage (i + 1)
    rw [ih (Nat.le_of_succ_le hi), h.fails i hi]

end Outgrows

end Rounds

end Environment

-- A store with what is noted of its use: how often it was called, and how long was
-- waited in between.
structure Watched where
  store : Environment
  calls : Nat
  waits : List Nat

namespace Watched

def call (c : Command) : StateM Watched (Except SyncError c.Result) := fun w =>
  let (result, store) := w.store.obey c
  (result.mapError .store, { w with store, calls := w.calls + 1 })

def wait (nanoseconds : Nat) : StateM Watched Unit :=
  modify fun w => { w with waits := w.waits ++ [nanoseconds] }

variable {c : Command} {stage : Nat → Environment} {rounds : Nat} {result : c.Result}
  {after : Environment} {policy : RetryPolicy} {draw : Nat → Nat}

theorem attempts_of_ok {w : Watched} (h : w.store.obey c = (.ok result, after)) (left : Nat) :
    (attempts policy draw wait (call c) left).run w =
      (.ok result, ⟨after, w.calls + 1, w.waits⟩) := by
  have hcall : call c w = (.ok result, ⟨after, w.calls + 1, w.waits⟩) := by
    simp only [call, h, Except.mapError]
  rw [attempts, StateT.run_bind, StateT.run, hcall]
  rfl

-- A map that was full is tried again at once, if there are attempts left.
theorem attempts_of_full {w : Watched} {operation : String} {size : UInt64}
    (h : w.store.obey c = (.error (.capacityExhausted operation size), after)) (left : Nat) :
    (attempts policy draw wait (call c) left).run w =
      match left with
      | 0 => (.error (.retriesExhausted policy.maxAttempts
          (.store (.capacityExhausted operation size))), ⟨after, w.calls + 1, w.waits⟩)
      | fewer + 1 =>
        (attempts policy draw wait (call c) fewer).run ⟨after, w.calls + 1, w.waits⟩ := by
  have hcall : call c w = (.error (.store (.capacityExhausted operation size)),
      ⟨after, w.calls + 1, w.waits⟩) := by
    simp only [call, h, Except.mapError]
  rw [attempts, StateT.run_bind, StateT.run, hcall]
  cases left <;> rfl

-- By induction on the attempts that are left: each of them fails and uses up one round,
-- until there are no rounds or no attempts.
theorem attempts_of_outgrows (h : Environment.Outgrows c stage rounds result after)
    {round left : Nat} (hround : round ≤ rounds) (calls : Nat) (waits : List Nat) :
    (attempts policy draw wait (call c) left).run ⟨stage round, calls, waits⟩ =
      if rounds ≤ round + left then
        (.ok result, ⟨after, calls + (rounds - round) + 1, waits⟩)
      else
        (.error (.retriesExhausted policy.maxAttempts
          (.store (.capacityExhausted c.operation (stage (round + left + 1)).mapSize))),
          ⟨stage (round + left + 1), calls + left + 1, waits⟩) := by
  induction left generalizing round calls with
  | zero =>
    by_cases hlast : round = rounds
    · rw [if_pos (by omega), hlast, attempts_of_ok h.ends, Nat.sub_self]
    · rw [if_neg (by omega), attempts_of_full (h.fails round (by omega))]
  | succ left ih =>
    by_cases hlast : round = rounds
    · rw [if_pos (by omega), hlast, attempts_of_ok h.ends, Nat.sub_self]
    · rw [attempts_of_full (h.fails round (by omega))]
      have hround : round + 1 + left = round + (left + 1) := by omega
      have hcalls : calls + 1 + (rounds - (round + 1)) = calls + (rounds - round) := by omega
      have hleft : calls + 1 + left = calls + (left + 1) := by omega
      simp only
      rw [ih (by omega), hround, hcalls, hleft]

theorem retry_of_outgrows (h : Environment.Outgrows c stage rounds result after)
    (hpolicy : policy.validate = .ok ()) :
    (retry policy draw wait (call c)).run ⟨stage 0, 0, []⟩ =
      if rounds < policy.maxAttempts.toNat then (.ok result, ⟨after, rounds + 1, []⟩)
      else
        (.error (.retriesExhausted policy.maxAttempts
          (.store (.capacityExhausted c.operation (stage policy.maxAttempts.toNat).mapSize))),
          ⟨stage policy.maxAttempts.toNat, policy.maxAttempts.toNat, []⟩) := by
  have hpositive : policy.maxAttempts.toNat ≠ 0 := by
    intro hzero
    have hnone : policy.maxAttempts = 0 := UInt32.toNat_inj.mp hzero
    simp [RetryPolicy.validate, hnone] at hpolicy
  obtain ⟨others, hothers⟩ := Nat.exists_eq_succ_of_ne_zero hpositive
  have hloop : (attempts policy draw wait (call c) others).run ⟨stage 0, 0, []⟩ = _ :=
    attempts_of_outgrows h (Nat.zero_le rounds) 0 []
  rw [retry, hpolicy, hothers]
  simp only [Nat.succ_eq_add_one, Nat.add_sub_cancel]
  rw [hloop]
  simp only [Nat.zero_add, Nat.sub_zero, Nat.lt_succ_iff]

end Watched

-- If the engine refuses a row for nothing but its own length, a write whose record is
-- larger than the map fails as often as the map has to grow for it, and nothing but the map
-- is changed until then. After that it comes to what it would have come to on an ample map.
-- Retried, it does so if it may be tried once more than it fails, and no attempt waits for
-- another.
theorem growth_transparent (config : Config) (fileSize ample : UInt64) (tables : Tables)
    (capacity : Capacity) (earlier : List Command) (c : Command) (table : String) (key : Key)
    (record : Record) (policy : RetryPolicy) (draw : Nat → Nat)
    (hconfig : config.validate = .ok ()) (hpolicy : policy.validate = .ok ())
    (hrule : capacity.IsByLength) :
    let e := (Environment.start config fileSize tables capacity).obeyAll earlier
    let amply := (e.resized ample).obey c
    let m := e.mapSize.toNat
    let g := (roundToGranule config.growthIncrement).toNat
    let k := (record.encode.length - m) ⌈/⌉ g
    let size := fun growths => UInt64.ofNat (m + growths * g)
    let attempts := policy.maxAttempts.toNat
    c.stored? amply.1 = some (table, key, record) → m + k * g < maxSize - 65535 →
    (∀ i < k, (e.obeyAll (List.replicate i c)).obey c =
      (.error (.capacityExhausted c.operation (size (i + 1))), e.resized (size (i + 1)))) ∧
    (e.obeyAll (List.replicate k c)).obey c = (amply.1, amply.2.resized (size k)) ∧
    (retry policy draw Watched.wait (Watched.call c)).run ⟨e, 0, []⟩ =
      (if k < attempts then
        (amply.1.mapError .store, ⟨amply.2.resized (size k), k + 1, []⟩)
      else
        (.error (.retriesExhausted policy.maxAttempts
          (.store (.capacityExhausted c.operation (size attempts)))),
          ⟨e.resized (size attempts), attempts, []⟩)) ∧
    ∀ later, e.mapSize ≤ (e.obeyAll later).mapSize := by
  intro e amply m g k size attempts hstored hbelow
  have hopening : (Environment.start config fileSize tables capacity).mapSize =
      roundToGranule (max config.initialMapSize (config.above fileSize)) := rfl
  obtain ⟨hsame, hkept, asked, hround⟩ :=
    (Environment.start config fileSize tables capacity).exists_round_obeyAll earlier ⟨_, hopening⟩
  have hrule : e.capacity.IsByLength := hkept ▸ hrule
  have hgrowth : e.growth = g := by
    rw [Environment.growth, hsame]
    rfl
  have hpositive : 0 < g := (Config.growthIncrement_pos hconfig).trans_le (le_roundToGranule _)
  have haligned : mapGranule ∣ m := by
    have hm : m = (roundToGranule asked).toNat := congrArg UInt64.toNat hround
    rw [hm]
    exact dvd_roundToGranule (by omega)
  have hsizes : e.sizeAfter = size := by
    funext growths
    rw [Environment.sizeAfter, hgrowth]
  have hrounds : k = (record.encode.length - m) ⌈/⌉ e.growth := by rw [hgrowth]
  have hwithin : m + k * e.growth < maxSize := by
    rw [hgrowth]
    omega
  obtain ⟨result, after, hamply, houtgrows⟩ :=
    Environment.outgrows_of_stored? hrule haligned (hgrowth ▸ hpositive) hstored hrounds hwithin
  have hamply : amply = (.ok result, after.resized ample) := hamply
  rw [hsizes] at houtgrows
  have hfirst : e.resized (size 0) = e := by
    rw [← hsizes, Environment.sizeAfter_zero]
    rfl
  have hstages : ∀ i ≤ k, e.obeyAll (List.replicate i c) = e.resized (size i) := by
    intro i hi
    have hstage := houtgrows.obeyAll hi
    rwa [hfirst] at hstage
  refine ⟨fun i hi => ?_, ?_, ?_, e.mapSize_le_obeyAll⟩
  · rw [hstages i (Nat.le_of_lt hi)]
    exact houtgrows.fails i hi
  · rw [hstages k (Nat.le_refl k), hamply]
    exact houtgrows.ends
  · have hretry : (retry policy draw Watched.wait (Watched.call c)).run
        ⟨e.resized (size 0), 0, []⟩ = _ := Watched.retry_of_outgrows houtgrows hpolicy
    rw [hfirst] at hretry
    rw [hretry, hamply]
    rfl

-- A record of 200,000 bytes takes three growths of the smallest map.
theorem growth_transparent_large :
    let config : Config := ⟨65536, 65536, 4, 1⟩
    let record : Record := OrderedMap.insert ∅ "alias" (.bytes (List.replicate 200000 0))
    let key : Key := ⟨List.replicate 32 0, rfl⟩
    let c : Command := .put "nodes" key record none
    let e := (Environment.start config 0 ∅ .byLength).obeyAll []
    let run := fun attempts =>
      (retry ⟨attempts, 0, 0⟩ (fun _ => 0) Watched.wait (Watched.call c)).run ⟨e, 0, []⟩
    (run 4).1 = .ok () ∧ (run 4).2.calls = 4 ∧
      (run 3).1 = .error (.retriesExhausted 3 (.store (.capacityExhausted "put" 262144))) := by
  intro config record key c e run
  let ample : UInt64 := 300000
  have hlength : record.encode.length = 200012 := by
    have hbytes : (List.replicate 200000 (0 : UInt8)).length = 200000 := List.length_replicate
    rw [Record.length_encode_bytes (by rw [hbytes]; decide) (by rw [hbytes]; decide), hbytes]
  have hrule : Capacity.byLength.IsByLength := fun _ _ => rfl
  have hfits : ¬(e.resized ample).IsFullFor "nodes" key record := by
    rw [Environment.isFullFor_iff hrule, hlength]
    decide
  have hput : (e.resized ample).obey c = (.ok (), _) :=
    Environment.put_eq_deposit (by decide) (.inr (by decide)) rfl (by simp) hfits
  have hstored : c.stored? ((e.resized ample).obey c).1 = some ("nodes", key, record) := by
    rw [hput]
    rfl
  have hsize : e.mapSize.toNat = 65536 := by decide +kernel
  have hgrown : (roundToGranule config.growthIncrement).toNat = 65536 := by decide +kernel
  have hrounds : (record.encode.length - e.mapSize.toNat) ⌈/⌉
      (roundToGranule config.growthIncrement).toNat = 3 := by
    rw [hlength, hsize, hgrown]
    decide +kernel
  have hbelow : e.mapSize.toNat + (record.encode.length - e.mapSize.toNat) ⌈/⌉
      (roundToGranule config.growthIncrement).toNat *
        (roundToGranule config.growthIncrement).toNat < maxSize - 65535 := by
    rw [hrounds, hsize, hgrown]
    decide
  obtain ⟨_, _, hfour, _⟩ := growth_transparent config 0 ample ∅ .byLength [] c "nodes" key record
    ⟨4, 0, 0⟩ (fun _ => 0) (by decide) (by decide) hrule hstored hbelow
  obtain ⟨_, _, hthree, _⟩ := growth_transparent config 0 ample ∅ .byLength [] c "nodes" key record
    ⟨3, 0, 0⟩ (fun _ => 0) (by decide) (by decide) hrule hstored hbelow
  have hfour : run 4 = _ := hfour
  have hthree : run 3 = _ := hthree
  rw [hrounds, if_pos (by decide)] at hfour
  rw [hrounds, if_neg (by decide)] at hthree
  have hlast : UInt64.ofNat (e.mapSize.toNat +
      3 * (roundToGranule config.growthIncrement).toNat) = 262144 := by
    rw [hsize, hgrown]
    rfl
  refine ⟨?_, ?_, ?_⟩
  · rw [hfour, hput]
    rfl
  · rw [hfour]
  · rw [hthree, ← hlast]
    rfl

end LightningRecords

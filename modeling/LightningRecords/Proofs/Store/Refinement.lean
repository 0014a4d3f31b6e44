import LightningRecords.Proofs.Store.Growth
import LightningRecords.Proofs.Store.Reports
import Mathlib.Data.List.Dedup
import Mathlib.Data.List.Perm.Subperm

namespace LightningRecords

namespace Shelf

variable (shelf : Shelf) (key : Key)

-- The table that the records of a shelf are written into.
def rows : Table where
  entries := shelf.entries.map fun e => (e.1.bytes, e.2.encode)
  ascending := by
    rw [List.pairwise_map]
    exact shelf.ascending

theorem lookup_rows (entries : List (Key × Record)) :
    OrderedMap.lookup Bytes.compare key.bytes (entries.map fun e => (e.1.bytes, e.2.encode)) =
      (OrderedMap.lookup Key.compare key entries).map Record.encode := by
  induction entries with
  | nil => rfl
  | cons e rest ih =>
    have hcompare : Bytes.compare key.bytes e.1.bytes = Key.compare key e.1 := rfl
    simp only [List.map_cons, OrderedMap.lookup, hcompare]
    by_cases heq : Key.compare key e.1 = .eq
    · simp only [heq, if_true, Option.map_some]
    · simp only [heq, if_false]
      exact ih

theorem get?_rows : (rows shelf).get? key.bytes = (shelf.get? key).map Record.encode :=
  lookup_rows key shelf.entries

theorem contains_rows : (rows shelf).contains key.bytes = shelf.contains key := by
  simp only [OrderedMap.contains, get?_rows, Option.isSome_map]

theorem size_rows : (rows shelf).size = shelf.size := by
  simp only [rows, OrderedMap.size, List.length_map]

theorem place_rows (record : Record) (entries : List (Key × Record)) :
    OrderedMap.place Bytes.compare key.bytes record.encode
        (entries.map fun e => (e.1.bytes, e.2.encode)) =
      (OrderedMap.place Key.compare key record entries).map fun e => (e.1.bytes, e.2.encode) := by
  induction entries with
  | nil => rfl
  | cons e rest ih =>
    have hcompare : Bytes.compare key.bytes e.1.bytes = Key.compare key e.1 := rfl
    simp only [List.map_cons, OrderedMap.place, hcompare]
    cases Key.compare key e.1 with
    | lt => rfl
    | eq => rfl
    | gt => simp only [List.map_cons, ih]

theorem rows_insert (record : Record) :
    rows (shelf.insert key record) = (rows shelf).insert key.bytes record.encode :=
  OrderedMap.ext_entries (place_rows key record shelf.entries).symm

theorem rows_erase : rows (shelf.erase key) = (rows shelf).erase key.bytes := by
  apply OrderedMap.ext_entries
  simp only [rows, OrderedMap.erase, OrderedMap.filter, List.filter_map]
  rfl

end Shelf

-- A record that is small enough for the map and not nested too deep.
structure Record.Fits (record : Record) (mapSize : UInt64) : Prop where
  size : record.encode.length ≤ mapSize.toNat
  depth : ∀ name value, record.get? name = some value → value.depth ≤ 126

theorem Record.Fits.decode {record : Record} {mapSize : UInt64} (h : record.Fits mapSize) :
    Record.decode record.encode = .ok record :=
  decode_encode_of_storable (Nat.lt_of_le_of_lt h.size mapSize.toNat_lt) h.depth

-- A store holds what a plain map holds, in an encoding that it can read back, and
-- has room for all the tables that will be named. Its map never was smaller than the
-- smallest one that the records fit.
structure Plain.Holds (m : Plain) (named : List String) (least : UInt64) (e : Environment) :
    Prop where
  contents : ∀ table, e.contents table = Shelf.rows (m table)
  fits : ∀ table key record, (m table).get? key = some record → record.Fits least
  least : least ≤ e.mapSize
  nodup : e.slots.Nodup
  slots : ∀ table ∈ e.slots, table ∈ named
  room : named.dedup.length ≤ e.config.maxTables.toNat

namespace Plain.Holds

variable {m : Plain} {named : List String} {least : UInt64} {e e' : Environment} {table : String}
  {key : Key} {record : Record}

theorem held (h : m.Holds named least e) (table : String) (key : Key) :
    e.held table key = .ok ((m table).get? key) := by
  rw [Environment.held, Environment.findRow, h.contents, Shelf.get?_rows]
  cases hget : (m table).get? key with
  | none => rfl
  | some record =>
    have hback := (h.fits table key record hget).decode
    simp only [Option.map_some, Environment.decodeRow, hback]
    rfl

-- No more tables hold a slot than are named.
theorem hasRoom (h : m.Holds named least e) (htable : table ∈ named) : e.HasRoom table := by
  by_cases hseat : table ∈ e.slots
  · exact .inl hseat
  · right
    have hnodup : (table :: e.slots).Nodup := List.nodup_cons.mpr ⟨hseat, h.nodup⟩
    have hsubset : table :: e.slots ⊆ named.dedup := by
      intro other hother
      rw [List.mem_dedup]
      rcases List.mem_cons.mp hother with rfl | hother
      · exact htable
      · exact h.slots other hother
    have hlength := (List.subperm_of_subset hnodup hsubset).length_le
    rw [List.length_cons] at hlength
    have hroom := h.room
    omega

-- Whatever has served an operation holds the map with the changed shelf.
theorem serves (h : m.Holds named least e) (htable : table ∈ named) {shelf : Shelf}
    (hserves : e.Serves table shelf.rows e')
    (hshelf : ∀ key record, shelf.get? key = some record → record.Fits least) :
    Plain.Holds (Function.update m table shelf) named least e' where
  contents := by
    intro other
    by_cases hother : other = table
    · subst hother
      rw [hserves.contents, Function.update_self]
    · rw [hserves.others other hother, Function.update_of_ne hother, h.contents]
  fits := by
    intro other key record hget
    by_cases hother : other = table
    · subst hother
      rw [Function.update_self] at hget
      exact hshelf key record hget
    · rw [Function.update_of_ne hother] at hget
      exact h.fits other key record hget
  least := by
    rw [hserves.mapSize]
    exact h.least
  nodup := by
    rcases hserves.slots with heq | ⟨hnot, heq⟩
    · rw [heq]
      exact h.nodup
    · rw [heq]
      exact List.nodup_append.mpr ⟨h.nodup, by simp, fun a ha b hb hab => by
        rw [List.mem_singleton.mp hb] at hab
        exact hnot (hab ▸ ha)⟩
  slots := by
    intro other hother
    rcases hserves.slots with heq | ⟨_, heq⟩
    · rw [heq] at hother
      exact h.slots other hother
    · rw [heq, List.mem_append, List.mem_singleton] at hother
      rcases hother with hother | rfl
      · exact h.slots other hother
      · exact htable
  room := by
    rw [hserves.config]
    exact h.room

-- Nothing but the use of a table.
theorem serves_same (h : m.Holds named least e) (htable : table ∈ named)
    (hserves : e.Serves table (e.contents table) e') : m.Holds named least e' := by
  rw [h.contents] at hserves
  have hsame := h.serves htable hserves (h.fits table)
  rwa [Function.update_eq_self] at hsame

theorem serves_set (h : m.Holds named least e) (htable : table ∈ named)
    (hfits : record.Fits least)
    (hserves : e.Serves table ((e.contents table).insert key.bytes record.encode) e') :
    (m.set table key record).Holds named least e' := by
  rw [h.contents, ← Shelf.rows_insert] at hserves
  refine h.serves htable hserves fun other found hget => ?_
  rw [OrderedMap.get?_insert] at hget
  split at hget
  · cases hget
    exact hfits
  · exact h.fits table other found hget

theorem serves_erase (h : m.Holds named least e) (htable : table ∈ named)
    (hserves : e.Serves table ((e.contents table).erase key.bytes) e') :
    Plain.Holds (Function.update m table ((m table).erase key)) named least e' := by
  rw [h.contents, ← Shelf.rows_erase] at hserves
  refine h.serves htable hserves fun other found hget => ?_
  rw [OrderedMap.get?_erase] at hget
  split at hget
  · cases hget
  · exact h.fits table other found hget

theorem told (h : m.Holds named least e) (isFull : Bool) :
    m.Holds named least (e.told isFull) :=
  ⟨h.contents, h.fits, h.least, h.nodup, h.slots, h.room⟩

theorem grow (h : m.Holds named least e) : m.Holds named least (e.grow e.mapSize) := by
  have hcontents (size : UInt64) (table : String) :
      Environment.contents { e with mapSize := size } table = Shelf.rows (m table) := by
    rw [Environment.contents]
    exact h.contents table
  rw [Environment.grow_eq]
  refine ⟨hcontents _, h.fits, UInt64.le_trans h.least ?_, h.nodup, h.slots, h.room⟩
  exact e.config.le_grownMapSize e.mapSize e.fileSize

-- A record that fits the smallest map finds room if the engine says so.
theorem not_isFullFor_told (h : m.Holds named least e) (hfits : record.Fits least) :
    ¬(e.told false).IsFullFor table key record := by
  rw [Environment.not_isFullFor_iff]
  exact ⟨hfits.size.trans (UInt64.le_iff_toNat_le.mp h.least), rfl⟩

end Plain.Holds

theorem Plain.unexpected?_eq (stored : Record) (expected : Option Record) :
    unexpected? stored (expected.getD ∅) = expected.bind stored.mismatch? := by
  cases expected with
  | none => rfl
  | some expected =>
    simp only [unexpected?, Record.mismatch?, Option.getD_some, Option.bind_some]
    congr 2
    funext e
    cases hget : stored.get? e.1 <;> simp [Record.agrees_iff, hget]

theorem Environment.mapSize_grow (e : Environment) :
    (e.grow e.mapSize).mapSize = roundToGranule (e.config.above e.mapSize) := by
  rw [grow_eq]
  exact Config.grownMapSize_of_le e.fileSize_le

theorem Environment.isFullFor_told_true (e : Environment) (table : String) (key : Key)
    (record : Record) : (e.told true).IsFullFor table key record :=
  Bool.or_eq_true_iff.mpr (.inr rfl)

section Told

variable {m m' : Plain} {o : Operation} {r told : Reply} {config : Config} {mapSize : UInt64}
  {isFull : Bool}

theorem Plain.performTold_eq (hm : Plain.perform o m = (r, m'))
    (hroom : isFull = true → ∀ grown, o.cramped? grown r = none) :
    Plain.performTold config (o, isFull) (m, mapSize) = (r, m', mapSize) := by
  simp only [Plain.performTold, hm]
  split
  · rename_i hcramped
    rw [hroom rfl] at hcramped
    cases hcramped
  · rfl

theorem Plain.performTold_of_cramped (hm : Plain.perform o m = (r, m'))
    (hcramped : o.cramped? (roundToGranule (config.above mapSize)) r = some told) :
    Plain.performTold config (o, true) (m, mapSize) =
      (told, m, roundToGranule (config.above mapSize)) := by
  simp only [Plain.performTold, hm, hcramped]

end Told

-- A store replies to an operation as the map does, and holds the map that comes of it.
structure Plain.Mirrors (m : Plain) (named : List String) (least : UInt64) (e : Environment)
    (step : Operation × Bool) : Prop where
  reply : (e.performTold step).1 = (Plain.performTold e.config step (m, e.mapSize)).1
  holds : (Plain.performTold e.config step (m, e.mapSize)).2.1.Holds named least
    (e.performTold step).2
  mapSize : (e.performTold step).2.mapSize =
    (Plain.performTold e.config step (m, e.mapSize)).2.2
  config : (e.performTold step).2.config = e.config

namespace Plain.Holds

variable {m : Plain} {named : List String} {least : UInt64} {e : Environment} {table : String}
  {key : Key} {isFull : Bool}

theorem mirrors {m' : Plain} {e' : Environment} {o : Operation} {r : Reply} {rows : Table}
    (h : m'.Holds named least e') (hserves : (e.told isFull).Serves table rows e')
    (he : (e.told isFull).perform o = (r, e')) (hm : Plain.perform o m = (r, m'))
    (hroom : isFull = true → ∀ grown, o.cramped? grown r = none) :
    m.Mirrors named least e (o, isFull) := by
  have hplain : Plain.performTold e.config (o, isFull) (m, e.mapSize) = (r, m', e.mapSize) :=
    performTold_eq hm hroom
  constructor <;> simp only [Environment.performTold, he, hplain]
  · exact h
  · exact hserves.mapSize
  · exact hserves.config

-- What finds no room is not done, and the reply tells how large the map is now.
theorem mirrors_of_cramped {m' : Plain} {o : Operation} {r told : Reply}
    (h : m.Holds named least e)
    (he : (e.told true).perform o = (told, (e.told true).grow (e.told true).mapSize))
    (hm : Plain.perform o m = (r, m'))
    (hcramped : o.cramped? (roundToGranule (e.config.above e.mapSize)) r = some told) :
    m.Mirrors named least e (o, true) := by
  have hplain : Plain.performTold e.config (o, true) (m, e.mapSize) = _ :=
    performTold_of_cramped hm hcramped
  constructor <;> simp only [Environment.performTold, he, hplain]
  · exact (h.told true).grow
  · exact (e.told true).mapSize_grow
  · rw [Environment.grow_eq]
    rfl

theorem mirrors_get (h : m.Holds named least e) (hvalid : Environment.checkTable table = .ok ())
    (htable : table ∈ named) : m.Mirrors named least e (.get table key, isFull) := by
  have ht := h.told isFull
  obtain ⟨e', hget, hserves, _⟩ :=
    Environment.get_of_room hvalid (ht.hasRoom htable) (ht.held table key)
  exact (ht.serves_same htable hserves).mirrors hserves (congrArg (Prod.map Reply.found id) hget)
    rfl fun _ _ => rfl

-- A record that is not to be written leaves everything as it is, and so does one that is,
-- but finds no room.
theorem mirrors_put (h : m.Holds named least e) (hvalid : Environment.checkTable table = .ok ())
    (htable : table ∈ named) {record : Record} {fresh : Option (List String)}
    (hfits : refusal? ((m table).get? key) (fresh.getD []) = none → isFull = false →
      record.Fits least) : m.Mirrors named least e (.put table key record fresh, isFull) := by
  have ht := h.told isFull
  have hroom := ht.hasRoom htable
  have hheld := ht.held table key
  cases hrefusal : refusal? ((m table).get? key) (fresh.getD []) with
  | some refused =>
    obtain ⟨found, hfound, hname⟩ := Option.bind_eq_some_iff.mp hrefusal
    obtain ⟨name, hfind, rfl⟩ := Option.map_eq_some_iff.mp hname
    rw [hfound] at hheld
    have hput : (e.told isFull).put table key record fresh = _ :=
      Environment.put_of_refused hvalid hroom hheld hfind
    refine ht.mirrors (.refl _ table) (congrArg (Prod.map Reply.stored id) hput) ?_ fun _ _ => rfl
    simp only [Plain.perform, hrefusal]
  | none =>
    have hfresh : ∀ found ∈ (m table).get? key,
        Environment.checkFresh table (fresh.getD []) found = .ok () := by
      intro found hfound
      rw [Option.mem_def.mp hfound] at hrefusal
      have hnone : (fresh.getD []).find? found.contains = none :=
        Option.map_eq_none_iff.mp hrefusal
      simp only [Environment.checkFresh, hnone]
    have hplain : Plain.perform (.put table key record fresh) m =
        (.stored (.ok ()), m.set table key record) := by
      simp only [Plain.perform, hrefusal]
    cases isFull with
    | true =>
      have hput : (e.told true).put table key record fresh = _ :=
        Environment.put_of_full hvalid hroom hheld hfresh (e.isFullFor_told_true table key record)
      refine h.mirrors_of_cramped (congrArg (Prod.map Reply.stored id) hput) hplain ?_
      rw [Environment.mapSize_grow]
      rfl
    | false =>
      have hfits := hfits hrefusal rfl
      have hput := Environment.put_eq_deposit hvalid hroom hheld hfresh (h.not_isFullFor_told hfits)
      have hserves := (e.told false).serves_deposit table key record
      exact (ht.serves_set htable hfits hserves).mirrors hserves
        (congrArg (Prod.map Reply.stored id) hput) hplain (by simp)

theorem mirrors_update (h : m.Holds named least e)
    (hvalid : Environment.checkTable table = .ok ()) (htable : table ∈ named) {changes : Changes}
    {expected : Option Record}
    (hfits : ∀ record, m.update table key changes (expected.getD ∅) = .ok record →
      isFull = false → record.Fits least) :
    m.Mirrors named least e (.update table key changes expected, isFull) := by
  have ht := h.told isFull
  have hroom := ht.hasRoom htable
  have hheld := ht.held table key
  have hrefused {error : StoreError}
      (he : (e.told isFull).update table key changes expected = (.error error, e.told isFull))
      (hm : m.update table key changes (expected.getD ∅) = .error error) :
      m.Mirrors named least e (.update table key changes expected, isFull) := by
    refine ht.mirrors (.refl _ table) (congrArg (Prod.map Reply.changed id) he) ?_ fun _ _ => rfl
    simp only [Plain.perform, hm]
  cases hfound : (m table).get? key with
  | none =>
    rw [hfound] at hheld
    apply hrefused (Environment.update_of_vacant hvalid hroom hheld)
    simp only [Plain.update, hfound]
  | some found =>
    rw [hfound] at hheld
    have hexpected := unexpected?_eq found expected
    cases hname : unexpected? found (expected.getD ∅) with
    | some name =>
      rw [hname] at hexpected
      apply hrefused (Environment.update_of_unexpected hvalid hroom hheld hexpected.symm)
      simp only [Plain.update, hfound, hname]
    | none =>
      rw [hname] at hexpected
      have happly := changes.apply_eq found
      cases hmisfit : changes.misfit? found with
      | some error =>
        rw [hmisfit] at happly
        apply hrefused (Environment.update_of_misfit hvalid hroom hheld hexpected.symm happly)
        simp only [Plain.update, hfound, hname, hmisfit]
      | none =>
        rw [hmisfit] at happly
        have hupdate : m.update table key changes (expected.getD ∅) =
            .ok (changes.pointwise found) := by
          simp only [Plain.update, hfound, hname, hmisfit]
        have hplain : Plain.perform (.update table key changes expected) m =
            (.changed (.ok (changes.pointwise found)),
              m.set table key (changes.pointwise found)) := by
          simp only [Plain.perform, hupdate]
        cases isFull with
        | true =>
          have hdone : (e.told true).update table key changes expected = _ :=
            Environment.update_of_full hvalid hroom hheld hexpected.symm happly
              (e.isFullFor_told_true table key _)
          refine h.mirrors_of_cramped (congrArg (Prod.map Reply.changed id) hdone) hplain ?_
          rw [Environment.mapSize_grow]
          rfl
        | false =>
          have hfits := hfits _ hupdate rfl
          have hdone := Environment.update_eq_deposit hvalid hroom hheld hexpected.symm happly
            (h.not_isFullFor_told hfits)
          have hserves := (e.told false).serves_deposit table key (changes.pointwise found)
          exact (ht.serves_set htable hfits hserves).mirrors hserves
            (congrArg (Prod.map Reply.changed id) hdone) hplain (by simp)

theorem mirrors_remove (h : m.Holds named least e)
    (hvalid : Environment.checkTable table = .ok ()) (htable : table ∈ named) :
    m.Mirrors named least e (.remove table key, isFull) := by
  have ht := h.told isFull
  obtain ⟨e', hremove, hserves⟩ := Environment.remove_of_room hvalid (ht.hasRoom htable)
  refine (ht.serves_erase htable hserves).mirrors hserves
    (congrArg (Prod.map Reply.removed id) hremove) ?_ fun _ _ => rfl
  rw [ht.contents, Shelf.contains_rows]
  rfl

theorem mirrors_length (h : m.Holds named least e)
    (hvalid : Environment.checkTable table = .ok ()) (htable : table ∈ named) :
    m.Mirrors named least e (.length table, isFull) := by
  have ht := h.told isFull
  obtain ⟨e', hlength, hserves⟩ := Environment.length_of_room hvalid (ht.hasRoom htable)
  refine (ht.serves_same htable hserves).mirrors hserves
    (congrArg (Prod.map Reply.counted id) hlength) ?_ fun _ _ => rfl
  rw [ht.contents, Shelf.size_rows]
  rfl

-- One operation, whichever it is and whatever the engine says.
theorem mirrors_performTold (h : m.Holds named least e) (o : Operation) (isFull : Bool)
    (hvalid : Environment.checkTable o.table = .ok ()) (htable : o.table ∈ named)
    (hwritten : ∀ record ∈ o.written? (Plain.performTold e.config (o, isFull) (m, e.mapSize)).1,
      record.Fits least) : m.Mirrors named least e (o, isFull) := by
  have hplain (hroom : isFull = false) :
      Plain.performTold e.config (o, isFull) (m, e.mapSize) =
        ((Plain.perform o m).1, (Plain.perform o m).2, e.mapSize) :=
    performTold_eq rfl (by simp [hroom])
  cases o with
  | get table key => exact h.mirrors_get hvalid htable
  | put table key record fresh =>
    apply h.mirrors_put hvalid htable
    intro hrefusal hroom
    apply hwritten
    change refusal? ((m table).get? key) (fresh.getD []) = none at hrefusal
    simp only [hplain hroom, Plain.perform, hrefusal]
    rfl
  | update table key changes expected =>
    apply h.mirrors_update hvalid htable
    intro record hupdate hroom
    apply hwritten
    change m.update table key changes (expected.getD ∅) = .ok record at hupdate
    simp only [hplain hroom, Plain.perform, hupdate]
    rfl
  | remove table key => exact h.mirrors_remove hvalid htable
  | length table => exact h.mirrors_length hvalid htable

-- By induction over the operations, the store holding what the map holds between
-- any two of them.
theorem replies_eq (h : m.Holds named least e) {steps : List (Operation × Bool)}
    (hvalid : ∀ step ∈ steps, Environment.checkTable step.1.table = .ok ())
    (htables : ∀ step ∈ steps, step.1.table ∈ named)
    (hwritten : ∀ record ∈ written (steps.map Prod.fst)
      (replies (Plain.performTold e.config) steps (m, e.mapSize)), record.Fits least) :
    replies Environment.performTold steps e =
      replies (Plain.performTold e.config) steps (m, e.mapSize) := by
  induction steps generalizing m e with
  | nil => rfl
  | cons step rest ih =>
    obtain ⟨o, isFull⟩ := step
    rw [replies, List.map_cons] at hwritten
    obtain ⟨hreply, hholds, hsize, hconfig⟩ := h.mirrors_performTold o isFull
      (hvalid (o, isFull) (by simp)) (htables (o, isFull) (by simp))
      fun record hrecord => hwritten record (mem_written_cons.mpr (.inl hrecord))
    have hrest := fun record hrecord => hwritten record (mem_written_cons.mpr (.inr hrecord))
    rw [replies, replies, hreply]
    generalize Plain.performTold e.config (o, isFull) (m, e.mapSize) = plain at *
    generalize e.performTold (o, isFull) = run at *
    obtain ⟨r, m', mapSize⟩ := plain
    obtain rfl : run.2.mapSize = mapSize := hsize
    rw [← hconfig] at hrest ⊢
    rw [ih hholds (fun x hx => hvalid x (List.mem_cons_of_mem _ hx))
      (fun x hx => htables x (List.mem_cons_of_mem _ hx)) hrest]

end Plain.Holds

-- A new store is an empty map.
theorem holds_start (config : Config) (fileSize : UInt64) {named : List String}
    (hroom : named.dedup.length ≤ config.maxTables.toNat) :
    Plain.empty.Holds named (config.mapSizeAtOpen fileSize)
      (Environment.start config fileSize ∅) where
  contents := fun _ => rfl
  fits := by
    intro table key record hget
    cases hget
  least := UInt64.le_refl _
  nodup := List.nodup_nil
  slots := by
    intro table htable
    cases htable
  room := hroom

-- What is written fits the map and is not nested too deep.
def AllFit (records : List Record) (mapSize : UInt64) : Prop :=
  (∀ record ∈ records, record.encode.length ≤ mapSize.toNat) ∧
    ∀ record ∈ records, ∀ name value, record.get? name = some value → value.depth ≤ 126

-- Two rows for which there is room each, but not both: the map has to grow for the second.
theorem replies_of_two_rows {record : Record} (hlength : record.encode.length = 150012) :
    let key (b : UInt8) : Key := ⟨List.replicate 32 b, List.length_replicate⟩
    replies Environment.perform
        [.put "nodes" (key 1) record none, .put "nodes" (key 2) record none]
        (Environment.start ⟨262144, 262144, 64, 32⟩ 0 ∅) =
      [.stored (.ok ()), .stored (.error (.capacityExhausted "put" 524288))] := by
  intro key
  let e := Environment.start ⟨262144, 262144, 64, 32⟩ 0 ∅
  let held := e.deposit "nodes" (key 1) record
  have hvalid : Environment.checkTable "nodes" = .ok () := by decide
  have hsize : e.mapSize = 262144 := by decide +kernel
  have hgrown : roundToGranule (e.config.above e.mapSize) = 524288 := by decide +kernel
  have hfits : ¬e.IsFullFor "nodes" (key 1) record := by
    have hweight : held.tables.weight = 0 + (0 + (32 + record.encode.length)) := rfl
    rw [Environment.not_isFullFor_iff, hlength, hsize]
    refine ⟨by decide, decide_eq_false (Nat.not_lt.mpr ?_)⟩
    change held.tables.weight ≤ 262144
    omega
  have hfull : held.IsFullFor "nodes" (key 2) record := by
    have hweight : (held.deposit "nodes" (key 2) record).tables.weight =
        0 + (0 + (32 + record.encode.length) + (32 + record.encode.length)) := rfl
    refine Bool.or_eq_true_iff.mpr (.inr (decide_eq_true ?_))
    change e.mapSize.toNat < _
    rw [hsize, hweight, hlength]
    decide
  have hput : e.perform (.put "nodes" (key 1) record none) = (.stored (.ok ()), held) :=
    congrArg (Prod.map Reply.stored id)
      (Environment.put_eq_deposit hvalid (.inr (by decide)) rfl (by simp) hfits)
  have hagain : held.perform (.put "nodes" (key 2) record none) =
      (.stored (.error (.capacityExhausted "put" (held.grow held.mapSize).mapSize)), _) :=
    congrArg (Prod.map Reply.stored id)
      (Environment.put_of_full hvalid (.inl (.head _)) rfl (by simp) hfull)
  have hsame : held.config.above held.mapSize = e.config.above e.mapSize := rfl
  rw [Environment.mapSize_grow, hsame, hgrown] at hagain
  rw [replies, replies, replies, hput, hagain]

end LightningRecords

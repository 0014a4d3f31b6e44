import LightningRecords.Proofs.Store.Rows
import LightningRecords.Proofs.Store.Sizes

namespace LightningRecords

-- Whatever can be asked of a store.
inductive Command where
  | get (table : String) (key : Key)
  | put (table : String) (key : Key) (record : Record) (fresh : Option (List String))
  | update (table : String) (key : Key) (changes : Changes) (expected : Option Record)
  | remove (table : String) (key : Key)
  | query (table : String) (query : Query)
  | length (table : String)
  | stats (table : String)

namespace Command

-- What comes of it if it succeeds.
abbrev Result : Command → Type
  | .get .. => Option Record
  | .put .. => Unit
  | .update .. => Record
  | .remove .. => Bool
  | .query .. => List Row
  | .length _ => Nat
  | .stats _ => Environment.Stats

def table : Command → String
  | .get table _ | .put table .. | .update table .. | .remove table _ | .query table _
  | .length table | .stats table => table

end Command

theorem Config.maxTables_pos {config : Config} (h : config.validate = .ok ()) :
    0 < config.maxTables.toNat := by
  have hne : config.maxTables ≠ 0 := by
    intro heq
    simp only [validate, heq, true_or, if_true] at h
    split at h
    · cases h
    · split at h <;> cases h
  exact Nat.pos_of_ne_zero fun hzero => hne (UInt32.toNat_inj.mp hzero)

namespace Environment

def obey (e : Environment) (c : Command) (mishaps : Mishaps := {}) :
    Except StoreError c.Result × Environment :=
  match c with
  | .get table key => e.get table key mishaps
  | .put table key record fresh => e.put table key record fresh mishaps
  | .update table key changes expected => e.update table key changes expected mishaps
  | .remove table key => e.remove table key mishaps
  | .query table query => e.query table query mishaps
  | .length table => e.length table mishaps
  | .stats table => e.stats table mishaps

-- What may go wrong with a transaction or the rows of a table before there is any want
-- of room.
inductive Fault (e : Environment) (table : String) : StoreError → Prop where
  | invalid (why : InvalidInput) : Fault e table (.invalid why)
  | engine (operation : String) (failure : EngineFailure) :
      Fault e table (.engine operation failure)
  | close (operation : String) (failure : EngineFailure) :
      Fault e table (.close operation failure)
  | notFound : Fault e table (.notFound table)
  | conflict (reason : ConflictReason) (stored : Record) :
      Fault e table (.conflict table reason stored)
  | corrupted {row : Bytes × Bytes} {error : DecodeError}
      (hrow : row ∈ (e.contents table).toList) (hdecode : Record.decode row.2 = .error error) :
      Fault e table (.corrupted table (.undecodable error))

-- What a failure leaves of a store: all that it holds, and a larger map if it was
-- too small.
structure Restores (e : Environment) (error : StoreError) (e' : Environment) : Prop where
  tables : e'.tables = e.tables
  slots : e'.slots = e.slots
  config : e'.config = e.config
  mapSize : error.isCapacity = false → e'.mapSize = e.mapSize
  reported : ∀ operation size, error = .capacityExhausted operation size → size = e'.mapSize
  grown : error.isCapacity = true → e.config.validate = .ok () → e'.mapSize.toNat < maxSize →
    e.mapSize < e'.mapSize

variable {e e' : Environment} {table : String} {key : Key} {error : StoreError}

section Faults

theorem fault_decodeRow {row : Bytes × Bytes} (hrow : row ∈ (e.contents table).toList)
    (h : decodeRow table row.2 = .error error) : e.Fault table error := by
  unfold decodeRow at h
  split at h
  · cases h
  · rename_i hdecode
    cases h
    exact .corrupted hrow hdecode

theorem fault_takeSlot {operation : String} (h : e.takeSlot operation table = .error error) :
    e.Fault table error := by
  rw [takeSlot_eq_error h]
  exact .engine operation .tablesFull

theorem openTable_eq_error (h : e.openTable table = .error error) :
    error = .engine "open table" .tablesFull := by
  rcases bind_eq_error_iff.mp h with hslot | ⟨_, _, hrows⟩
  · exact takeSlot_eq_error hslot
  · split at hrows <;> cases hrows

theorem fault_openTable (h : e.openTable table = .error error) : e.Fault table error := by
  rw [openTable_eq_error h]
  exact .engine "open table" .tablesFull

theorem fault_createTable (h : e.createTable table = .error error) : e.Fault table error := by
  rcases bind_eq_error_iff.mp h with hslot | ⟨_, _, hrows⟩
  · exact fault_takeSlot hslot
  · split at hrows <;> cases hrows

theorem fault_findRow (h : findRow table (e.contents table) key = .error error) :
    e.Fault table error := by
  unfold findRow at h
  split at h
  · rename_i bytes hbytes
    have hrow := (OrderedMap.mem_toList_iff _ key.bytes bytes).mpr hbytes
    cases hrecord : decodeRow table bytes with
    | ok record =>
      rw [hrecord] at h
      cases h
    | error cause =>
      rw [hrecord] at h
      cases h
      exact fault_decodeRow hrow hrecord
  · cases h

theorem fault_checkFresh {fresh : List String} {stored : Record}
    (h : checkFresh table fresh stored = .error error) : e.Fault table error := by
  unfold checkFresh at h
  split at h
  · cases h
    exact .conflict _ stored
  · cases h

theorem fault_checkExpected {expected : Option Record} {stored : Record}
    (h : checkExpected table expected stored = .error error) : e.Fault table error := by
  unfold checkExpected at h
  split at h
  · cases h
    exact .conflict _ stored
  · cases h

theorem fault_applyChanges {changes : Changes} {stored : Record}
    (h : applyChanges changes stored = .error error) : e.Fault table error := by
  unfold applyChanges at h
  split at h
  · cases h
  · cases h
    exact .invalid _

theorem fault_storeRow {opened : Environment} {operation : String} {rows : Table}
    {keyBytes bytes : Bytes}
    (h : opened.storeRow operation table rows keyBytes bytes = .error error) :
    e.Fault table error := by
  rw [storeRow_eq_error h]
  exact .engine operation .mapFull

theorem mem_of_mem_stretch {query : Query} {rows : Table} {row : Bytes × Bytes}
    (h : row ∈ stretch query rows) : row ∈ rows.toList := by
  have hrun : ∀ isBefore isWithin : Bytes × Bytes → Bool,
      row ∈ (rows.toList.dropWhile isBefore).takeWhile isWithin → row ∈ rows.toList :=
    fun _ _ hrow => (List.dropWhile_sublist _).mem ((List.takeWhile_sublist _).mem hrow)
  simp only [stretch] at h
  split at h
  · exact hrun _ _ (List.mem_of_mem_take h)
  · exact hrun _ _ h

theorem fault_selectRows {query : Query}
    (h : selectRows table query (e.contents table) = .error error) : e.Fault table error := by
  rcases bind_eq_error_iff.mp h with hfound | ⟨_, _, hdone⟩
  · obtain ⟨row, hrow, hcause⟩ := exists_of_mapM_eq_error hfound
    cases hrecord : decodeRow table row.2 with
    | ok record =>
      simp only [hrecord] at hcause
      cases hcause
    | error cause =>
      simp only [hrecord] at hcause
      cases hcause
      exact fault_decodeRow (mem_of_mem_stretch hrow) hrecord
  · cases hdone

end Faults

section Transactions

variable {α : Type} {operation : String} {mishaps : Mishaps}
  {body : Environment → Except StoreError (α × Environment)}

-- How an operation ends that fails: with a fault, and the state as it was, or for
-- want of room, and the map grown.
def Fails (e : Environment) (table : String) (error : StoreError) (e' : Environment) : Prop :=
  e.Fault table error ∧ e' = e ∨
    ∃ operation, error = .capacityExhausted operation e'.mapSize ∧ e' = e.grow e.mapSize

theorem checked_fails {run : Except StoreError α × Environment}
    (h : e.checked table run = (.error error, e'))
    (hrun : run = (.error error, e') → e.Fails table error e') : e.Fails table error e' := by
  unfold checked at h
  split at h
  · exact hrun h
  · rename_i hinvalid
    cases h
    obtain ⟨why, rfl⟩ := checkTable_eq_error hinvalid
    exact .inl ⟨.invalid _, rfl⟩

theorem read_fails (h : e.read operation mishaps body = (.error error, e'))
    (hbody : body e = .error error → e.Fault table error) : e.Fails table error e' := by
  unfold read at h
  split at h
  · cases h
    exact .inl ⟨.engine _ _, rfl⟩
  · split at h
    · rename_i hcause
      cases h
      exact .inl ⟨hbody hcause, rfl⟩
    · split at h
      · cases h
        exact .inl ⟨.close _ _, rfl⟩
      · cases h

theorem afterMapLimit_fails
    (h : (e.afterMapLimit operation mishaps : Except StoreError α × Environment) =
      (.error error, e')) : e.Fails table error e' := by
  unfold afterMapLimit at h
  split at h
  · cases h
    exact .inl ⟨.engine _ _, rfl⟩
  · cases h
    exact .inl ⟨.engine _ _, rfl⟩
  · cases h
    exact .inr ⟨operation, rfl, rfl⟩

-- Every exit of a write: it cannot be begun, its body fails, or it cannot be ended, and
-- at each of them the map may have been too small.
theorem write_fails (h : e.write operation mishaps body = (.error error, e'))
    (hbody : ∀ cause, body e = .error cause → e.Fault table cause) : e.Fails table error e' := by
  unfold write at h
  split at h
  · split at h
    · exact afterMapLimit_fails h
    · cases h
      exact .inl ⟨.engine _ _, rfl⟩
  · split at h
    · rename_i hcause
      split at h
      · exact afterMapLimit_fails h
      · cases h
        exact .inl ⟨hbody _ hcause, rfl⟩
    · split at h
      · cases h
      · split at h
        · exact afterMapLimit_fails h
        · cases h
          exact .inl ⟨.engine _ _, rfl⟩

end Transactions

section Operations

variable {mishaps : Mishaps}

theorem get_fails (h : e.get table key mishaps = (.error error, e')) : e.Fails table error e' := by
  refine checked_fails h fun h => read_fails h fun hbody => ?_
  rcases bind_eq_error_iff.mp hbody with hopen | ⟨⟨rows, opened⟩, hopened, hbody⟩
  · exact fault_openTable hopen
  · obtain ⟨_, _, hrows, _⟩ := openTable_eq_ok hopened
    cases rows with
    | none => cases hbody
    | some rows =>
      rw [← contents_of_some hrows.symm] at hbody
      rcases bind_eq_error_iff.mp hbody with hfound | ⟨_, _, hdone⟩
      · exact fault_findRow hfound
      · cases hdone

theorem put_fails {record : Record} {fresh : Option (List String)}
    (h : e.put table key record fresh mishaps = (.error error, e')) : e.Fails table error e' := by
  refine checked_fails h fun h => write_fails h fun cause hbody => ?_
  rcases bind_eq_error_iff.mp hbody with hcreate | ⟨⟨rows, opened⟩, hopened, hbody⟩
  · exact fault_createTable hcreate
  · obtain ⟨rfl, _⟩ := createTable_eq_ok hopened
    rcases bind_eq_error_iff.mp hbody with hfound | ⟨stored, _, hbody⟩
    · exact fault_findRow hfound
    · cases stored with
      | none =>
        rcases bind_eq_error_iff.mp hbody with hrow | ⟨_, _, hdone⟩
        · exact fault_storeRow hrow
        · cases hdone
      | some found =>
        rcases bind_eq_error_iff.mp hbody with hfresh | ⟨_, _, hbody⟩
        · exact fault_checkFresh hfresh
        · rcases bind_eq_error_iff.mp hbody with hrow | ⟨_, _, hdone⟩
          · exact fault_storeRow hrow
          · cases hdone

theorem update_fails {changes : Changes} {expected : Option Record}
    (h : e.update table key changes expected mishaps = (.error error, e')) :
    e.Fails table error e' := by
  refine checked_fails h fun h => write_fails h fun cause hbody => ?_
  rcases bind_eq_error_iff.mp hbody with hopen | ⟨⟨rows, opened⟩, hopened, hbody⟩
  · exact fault_openTable hopen
  · obtain ⟨_, _, hrows, _⟩ := openTable_eq_ok hopened
    cases rows with
    | none =>
      cases hbody
      exact .notFound
    | some rows =>
      rw [← contents_of_some hrows.symm] at hbody
      rcases bind_eq_error_iff.mp hbody with hfound | ⟨stored, _, hbody⟩
      · exact fault_findRow hfound
      · cases stored with
        | none =>
          cases hbody
          exact .notFound
        | some found =>
          rcases bind_eq_error_iff.mp hbody with hexpected | ⟨_, _, hbody⟩
          · exact fault_checkExpected hexpected
          · rcases bind_eq_error_iff.mp hbody with hchange | ⟨_, _, hbody⟩
            · exact fault_applyChanges hchange
            · rcases bind_eq_error_iff.mp hbody with hrow | ⟨_, _, hdone⟩
              · exact fault_storeRow hrow
              · cases hdone

theorem remove_fails (h : e.remove table key mishaps = (.error error, e')) :
    e.Fails table error e' := by
  refine checked_fails h fun h => write_fails h fun cause hbody => ?_
  rcases bind_eq_error_iff.mp hbody with hopen | ⟨⟨rows, opened⟩, _, hbody⟩
  · exact fault_openTable hopen
  · cases rows <;> cases hbody

theorem query_fails {query : Query} (h : e.query table query mishaps = (.error error, e')) :
    e.Fails table error e' := by
  refine checked_fails h fun h => ?_
  split at h
  · cases h
  · refine read_fails h fun hbody => ?_
    rcases bind_eq_error_iff.mp hbody with hopen | ⟨⟨rows, opened⟩, hopened, hbody⟩
    · exact fault_openTable hopen
    · obtain ⟨_, _, hrows, _⟩ := openTable_eq_ok hopened
      cases rows with
      | none => cases hbody
      | some rows =>
        rw [← contents_of_some hrows.symm] at hbody
        simp only at hbody
        split at hbody
        · cases hbody
          exact .engine "query" .badValueSize
        · rcases bind_eq_error_iff.mp hbody with hselect | ⟨_, _, hdone⟩
          · exact fault_selectRows hselect
          · cases hdone

theorem length_fails (h : e.length table mishaps = (.error error, e')) :
    e.Fails table error e' := by
  refine checked_fails h fun h => read_fails h fun hbody => ?_
  rcases bind_eq_error_iff.mp hbody with hopen | ⟨⟨rows, opened⟩, _, hbody⟩
  · exact fault_openTable hopen
  · cases rows <;> cases hbody

theorem stats_fails (h : e.stats table mishaps = (.error error, e')) :
    e.Fails table error e' := by
  cases hlength : e.length table mishaps with
  | mk entries after =>
    simp only [stats, hlength] at h
    cases entries with
    | ok entries => cases h
    | error cause =>
      cases h
      exact length_fails hlength

theorem obey_fails {c : Command} (h : e.obey c mishaps = (.error error, e')) :
    e.Fails c.table error e' := by
  cases c with
  | get table key => exact get_fails h
  | put table key record fresh => exact put_fails h
  | update table key changes expected => exact update_fails h
  | remove table key => exact remove_fails h
  | query table query => exact query_fails h
  | length table => exact length_fails h
  | stats table => exact stats_fails h

end Operations

section Held

variable {stored : Option Record} {found : Record}

-- Where what stands can be read, nothing but the want of a slot is in the way.
theorem get_error_of_held (hvalid : checkTable table = .ok ())
    (hheld : e.held table key = .ok stored) (h : e.get table key = (.error error, e')) :
    error = .engine "open table" .tablesFull := by
  rw [get, checked_of_valid _ hvalid] at h
  rcases bind_eq_error_iff.mp (body_of_read_error h) with hopen | ⟨⟨rows, opened⟩, hopened, hbody⟩
  · exact openTable_eq_error hopen
  · obtain ⟨_, _, hrows, _⟩ := openTable_eq_ok hopened
    cases rows with
    | none => cases hbody
    | some rows =>
      rw [held, contents_of_some hrows.symm] at hheld
      rcases bind_eq_error_iff.mp hbody with hfound | ⟨_, _, hdone⟩
      · rw [hheld] at hfound
        cases hfound
      · cases hdone

-- Where there is a record, it may be not as expected, or the changes not fit it.
theorem update_error_of_held {changes : Changes} {expected : Option Record}
    (hvalid : checkTable table = .ok ()) (hheld : e.held table key = .ok (some found))
    (h : e.update table key changes expected = (.error error, e')) :
    error = .engine "open table" .tablesFull ∨ error = .capacityExhausted "update" e'.mapSize ∨
      (∃ name, expected.bind found.mismatch? = some name ∧
        error = .conflict table (.expectMismatch name) found) ∨
      ∃ misfit, changes.apply found = .error misfit ∧ error = .invalid (.change misfit) := by
  rw [update, checked_of_valid _ hvalid] at h
  obtain ⟨_, cause, hbody, hcause⟩ := write_eq_error h
  rcases bind_eq_error_iff.mp hbody with hopen | ⟨⟨rows, opened⟩, hopened, hbody⟩
  · cases openTable_eq_error hopen
    rcases hcause with ⟨_, rfl⟩ | ⟨hlimit, _⟩
    · exact .inl rfl
    · cases hlimit
  · obtain ⟨_, _, hrows, _⟩ := openTable_eq_ok hopened
    rw [rows_of_held hheld] at hrows
    subst hrows
    rcases bind_eq_error_iff.mp hbody with hfound | ⟨stored, hfound, hbody⟩
    · rw [show findRow table (e.contents table) key = .ok (some found) from hheld] at hfound
      cases hfound
    · rw [show findRow table (e.contents table) key = .ok (some found) from hheld] at hfound
      cases hfound
      rcases bind_eq_error_iff.mp hbody with hexpected | ⟨_, _, hbody⟩
      · unfold checkExpected at hexpected
        split at hexpected
        · rename_i name hname
          cases hexpected
          rcases hcause with ⟨_, rfl⟩ | ⟨hlimit, _⟩
          · exact .inr (.inr (.inl ⟨name, hname, rfl⟩))
          · cases hlimit
        · cases hexpected
      · rcases bind_eq_error_iff.mp hbody with hchange | ⟨_, _, hbody⟩
        · unfold applyChanges at hchange
          split at hchange
          · cases hchange
          · rename_i misfit hmisfit
            cases hchange
            rcases hcause with ⟨_, rfl⟩ | ⟨hlimit, _⟩
            · exact .inr (.inr (.inr ⟨misfit, hmisfit, rfl⟩))
            · cases hlimit
        · rcases bind_eq_error_iff.mp hbody with hrow | ⟨_, _, hdone⟩
          · cases storeRow_eq_error hrow
            rcases hcause with ⟨hlimit, _⟩ | ⟨_, hgrown⟩
            · cases hlimit
            · exact .inr (.inl hgrown)
          · cases hdone

end Held

theorem Fault.isCapacity (h : e.Fault table error) : error.isCapacity = false := by
  cases h <;> rfl

theorem Fault.restores (h : e.Fault table error) : e.Restores error e where
  tables := rfl
  slots := rfl
  config := rfl
  mapSize := fun _ => rfl
  reported := by
    rintro operation size rfl
    cases h.isCapacity
  grown := by
    intro hcapacity
    rw [h.isCapacity] at hcapacity
    cases hcapacity

theorem grow_eq (e : Environment) :
    e.grow e.mapSize = { e with mapSize := e.config.grownMapSize e.mapSize e.fileSize } :=
  if_neg (UInt64.lt_irrefl e.mapSize)

theorem restores_grow (e : Environment) (operation : String) :
    e.Restores (.capacityExhausted operation (e.grow e.mapSize).mapSize) (e.grow e.mapSize) := by
  rw [grow_eq]
  refine ⟨rfl, rfl, rfl, ?_, ?_, ?_⟩
  · intro hcapacity
    cases hcapacity
  · rintro _ size ⟨⟩
    rfl
  · intro _ hvalid hbelow
    have hgrown := Config.add_growthIncrement_le hbelow
    have hpositive := Config.growthIncrement_pos hvalid
    change e.mapSize.toNat < (e.config.grownMapSize e.mapSize e.fileSize).toNat
    omega

theorem Fails.restores (h : e.Fails table error e') : e.Restores error e' := by
  rcases h with ⟨hfault, rfl⟩ | ⟨operation, rfl, rfl⟩
  · exact hfault.restores
  · exact restores_grow e operation

-- Whatever an operation had done before it failed is undone, and whatever happened to
-- its transaction.
theorem restores_of_error {c : Command} {mishaps : Mishaps}
    (h : e.obey c mishaps = (.error error, e')) : e.Restores error e' :=
  (obey_fails h).restores

-- A record that is too large for the map: the one it was to replace had been deleted
-- by then, and the table it was to be the first of had been made. And a removal that
-- could not be committed.
theorem restores_of_error_full :
    let key : Key := ⟨List.replicate 32 0, rfl⟩
    let small : Record := OrderedMap.insert ∅ "n" (.int 1)
    let large : Record := OrderedMap.insert ∅ "n" (.text "more than eight bytes")
    let e : Environment :=
      { config := Config.minimal
        mapSize := 8
        slots := []
        tables := OrderedMap.insert ∅ "nodes" (OrderedMap.insert ∅ key.bytes small.encode) }
    let error : StoreError := .capacityExhausted "put" 4259840
    let replaced := e.obey (.put "nodes" key large none)
    let created := e.obey (.put "peers" key large none)
    let removed := e.obey (.remove "nodes" key) { atEnd := some .outOfMemory }
    (replaced.1 = .error error ∧ e.Restores error replaced.2 ∧
      replaced.2.held "nodes" key = .ok (some small)) ∧
    (created.1 = .error error ∧ e.Restores error created.2 ∧
      created.2.tables.get? "peers" = none) ∧
    removed.1 = .error (.engine "commit" .outOfMemory) ∧
      e.Restores (.engine "commit" .outOfMemory) removed.2 ∧
      removed.2.held "nodes" key = .ok (some small) := by
  intro key small large e error replaced created removed
  have hreplaced : replaced.1 = .error error := by decide +kernel
  have hcreated : created.1 = .error error := by decide +kernel
  have hremoved : removed.1 = .error (.engine "commit" .outOfMemory) := by decide +kernel
  exact ⟨⟨hreplaced, restores_of_error (Prod.ext hreplaced rfl), by decide +kernel⟩,
    ⟨hcreated, restores_of_error (Prod.ext hcreated rfl), by decide +kernel⟩,
    hremoved, restores_of_error (Prod.ext hremoved rfl), by decide +kernel⟩

end Environment

end LightningRecords

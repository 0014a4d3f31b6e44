import LightningRecords.Proofs.Record.Changes
import LightningRecords.Store.Environment

namespace LightningRecords

namespace OrderedMap

variable {κ α : Type} {cmp : κ → κ → Ordering} [Std.TransCmp cmp] [Std.LawfulEqCmp cmp]

@[simp] theorem insert_insert (m : OrderedMap cmp α) (k : κ) (v w : α) :
    (m.insert k v).insert k w = m.insert k w := by
  apply ext_get?
  intro k'
  by_cases h : k' = k <;> simp [h]

@[simp] theorem erase_insert (m : OrderedMap cmp α) (k : κ) (v : α) :
    (m.erase k).insert k v = m.insert k v := by
  apply ext_get?
  intro k'
  by_cases h : k' = k <;> simp [h]

end OrderedMap

namespace Environment

-- What stands under a key, whether or not its table has a slot.
def held (e : Environment) (table : String) (key : Key) : Except StoreError (Option Record) :=
  findRow table (e.contents table) key

-- Nothing but slots has been taken and room been added.
structure Keeps (e e' : Environment) : Prop where
  tables : e'.tables = e.tables
  slots : e.slots ⊆ e'.slots

-- A record was put under a key, it is small enough for the map, and its table has
-- a slot. Nothing else has changed.
structure Writes (e : Environment) (table : String) (key : Key) (record : Record)
    (e' : Environment) : Prop where
  tables : e'.tables = e.tables.insert table ((e.contents table).insert key.bytes record.encode)
  fits : record.encode.length ≤ e.mapSize.toNat
  slots : e.slots ⊆ e'.slots
  seat : table ∈ e'.slots

variable {e e' : Environment} {table : String} {key : Key} {record : Record}

theorem contents_of_some {rows : Table} (h : e.tables.get? table = some rows) :
    e.contents table = rows := by
  simp [contents, h]

theorem contents_of_none (h : e.tables.get? table = none) : e.contents table = ∅ := by
  simp [contents, h]

theorem Keeps.refl (e : Environment) : e.Keeps e := ⟨rfl, List.Subset.refl _⟩

theorem Keeps.contents (h : e.Keeps e') (table : String) :
    e'.contents table = e.contents table := by
  rw [Environment.contents, h.tables, Environment.contents]

theorem Keeps.held (h : e.Keeps e') (table : String) (key : Key) :
    e'.held table key = e.held table key := by
  rw [Environment.held, h.contents, Environment.held]

theorem key_bytes_inj {a b : Key} (h : a.bytes = b.bytes) : a = b := by
  cases a
  cases b
  cases h
  rfl

theorem Writes.held_other (h : e.Writes table key record e') {other : String} {otherKey : Key}
    (hne : ¬(other = table ∧ otherKey = key)) : e'.held other otherKey = e.held other otherKey := by
  simp only [held, contents, h.tables, findRow]
  by_cases htable : other = table
  · have hkey : otherKey.bytes ≠ key.bytes := fun heq => hne ⟨htable, key_bytes_inj heq⟩
    simp [htable, hkey]
  · simp [htable]

theorem Writes.held_self (h : e.Writes table key record e') (hs : record.Storable) :
    e'.held table key = .ok (some record) := by
  have hfits : record.encode.length < 2 ^ 64 := Nat.lt_of_le_of_lt h.fits e.mapSize.toNat_lt
  simp [held, contents, h.tables, findRow, decodeRow, Record.decode_encode_of_storable hfits hs,
    Except.map]

theorem rows_of_held {found : Record} (h : e.held table key = .ok (some found)) :
    e.tables.get? table = some (e.contents table) := by
  cases hrows : e.tables.get? table with
  | some rows => rw [contents_of_some hrows]
  | none => simp [held, contents, hrows, findRow] at h

theorem storable_of_held (h : e.held table key = .ok (some record)) : record.Storable := by
  simp only [held, findRow] at h
  split at h
  · rename_i bytes _
    unfold decodeRow at h
    split at h
    · rename_i found hfound
      cases h
      exact Record.storable_of_decode hfound
    · cases h
  · cases h

theorem takeSlot_eq_ok {operation : String} (h : e.takeSlot operation table = .ok e') :
    e.Keeps e' ∧ e'.mapSize = e.mapSize ∧ table ∈ e'.slots := by
  unfold takeSlot at h
  split at h
  · rename_i hseated
    cases h
    exact ⟨Keeps.refl e, rfl, by simpa using hseated⟩
  · split at h
    · cases h
    · cases h
      exact ⟨⟨rfl, List.subset_append_left _ _⟩, rfl, by simp⟩

theorem takeSlot_of_mem (operation : String) (h : table ∈ e.slots) :
    e.takeSlot operation table = .ok e := by
  simp [takeSlot, h]

theorem takeSlot_eq_error {operation : String} {error : StoreError}
    (h : e.takeSlot operation table = .error error) : error = .engine operation .tablesFull := by
  unfold takeSlot at h
  split at h
  · cases h
  · split at h
    · cases h
      rfl
    · cases h

theorem openTable_eq_ok {rows : Option Table} (h : e.openTable table = .ok (rows, e')) :
    e.Keeps e' ∧ e'.mapSize = e.mapSize ∧ rows = e.tables.get? table ∧
      (rows.isSome → table ∈ e'.slots) := by
  obtain ⟨opened, hopened, h⟩ := bind_eq_ok_iff.mp h
  obtain ⟨hkeeps, hsize, hseat⟩ := takeSlot_eq_ok hopened
  split at h
  · rename_i hrows
    cases h
    exact ⟨hkeeps, hsize, hrows.symm, fun _ => hseat⟩
  · rename_i hrows
    cases h
    exact ⟨Keeps.refl e, rfl, hrows.symm, by simp⟩

theorem createTable_eq_ok {rows : Table} (h : e.createTable table = .ok (rows, e')) :
    rows = e.contents table ∧ e'.mapSize = e.mapSize ∧ e.slots ⊆ e'.slots ∧ table ∈ e'.slots ∧
      ∀ later : Table, e'.tables.insert table later = e.tables.insert table later := by
  obtain ⟨opened, hopened, h⟩ := bind_eq_ok_iff.mp h
  obtain ⟨hkeeps, hsize, hseat⟩ := takeSlot_eq_ok hopened
  split at h
  · rename_i hrows
    cases h
    exact ⟨(contents_of_some hrows).symm, hsize, hkeeps.slots, hseat,
      fun _ => by rw [hkeeps.tables]⟩
  · rename_i hrows
    cases h
    refine ⟨(contents_of_none hrows).symm, hsize, hkeeps.slots, hseat, fun later => ?_⟩
    rw [OrderedMap.insert_insert, hkeeps.tables]

theorem isFull_eq_false_iff {length : Nat} {tables : Tables} : e.isFull length tables = false ↔
    length ≤ e.mapSize.toNat ∧ e.capacity.isFull e.mapSize tables = false := by
  simp [isFull]

theorem storeRow_eq_ok {operation : String} {rows : Table} {bytes keyBytes : Bytes}
    (h : e.storeRow operation table rows keyBytes bytes = .ok e') :
    bytes.length ≤ e.mapSize.toNat ∧ e' = e.setRows table (rows.insert keyBytes bytes) := by
  simp only [storeRow] at h
  split at h
  · cases h
  · rename_i hroom
    cases h
    exact ⟨(isFull_eq_false_iff.mp (Bool.not_eq_true _ ▸ hroom)).1, rfl⟩

theorem storeRow_eq_error {operation : String} {rows : Table} {bytes keyBytes : Bytes}
    {error : StoreError} (h : e.storeRow operation table rows keyBytes bytes = .error error) :
    error = .engine operation .mapFull := by
  simp only [storeRow] at h
  split at h
  · cases h
    rfl
  · cases h

section Transactions

variable {α : Type} {operation : String} {a : α} {error : StoreError} {mishaps : Mishaps}
  {body : Environment → Except StoreError (α × Environment)}

theorem checked_eq_ok {run : Except StoreError α × Environment}
    (h : e.checked table run = (.ok a, e')) : run = (.ok a, e') := by
  unfold checked at h
  split at h
  · exact h
  · cases h

theorem checked_eq_error {run : Except StoreError α × Environment}
    (h : e.checked table run = (.error error, e')) : run = (.error error, e') ∨ e' = e := by
  unfold checked at h
  split at h
  · exact .inl h
  · cases h
    exact .inr rfl

theorem checkTable_of_checked {run : Except StoreError α × Environment}
    (h : e.checked table run = (.ok a, e')) : checkTable table = .ok () := by
  unfold checked at h
  split at h
  · assumption
  · cases h

theorem checkTable_eq_error (h : checkTable table = .error error) :
    ∃ why, error = .invalid (.tableName why) := by
  unfold checkTable at h
  split at h
  · cases h
    exact ⟨_, rfl⟩
  · split at h
    · cases h
    · cases h
      exact ⟨_, rfl⟩

theorem checked_of_valid (run : Except StoreError α × Environment) (h : checkTable table = .ok ()) :
    e.checked table run = run := by
  simp only [checked, h]

theorem read_eq_ok (h : e.read operation mishaps body = (.ok a, e')) : body e = .ok (a, e') := by
  unfold read at h
  split at h
  · cases h
  · split at h
    · cases h
    · rename_i hbody
      split at h
      · cases h
      · cases h
        exact hbody

theorem read_eq_error (h : e.read operation mishaps body = (.error error, e')) : e' = e := by
  unfold read at h
  split at h
  · cases h
    rfl
  · split at h
    · cases h
      rfl
    · split at h
      · cases h
        rfl
      · cases h

theorem keeps_grow (e : Environment) (observed : UInt64) : e.Keeps (e.grow observed) := by
  unfold grow
  split
  · exact Keeps.refl e
  · exact ⟨rfl, List.Subset.refl _⟩

-- A write that the map was too small for ends with an error, whatever comes after.
theorem afterMapLimit_ne_ok : e.afterMapLimit operation mishaps ≠ (.ok a, e') := by
  intro h
  unfold afterMapLimit at h
  split at h <;> cases h

theorem write_eq_ok (h : e.write operation mishaps body = (.ok a, e')) :
    body e = .ok (a, e') := by
  unfold write at h
  split at h
  · split at h
    · exact absurd h afterMapLimit_ne_ok
    · cases h
  · split at h
    · split at h
      · exact absurd h afterMapLimit_ne_ok
      · cases h
    · rename_i hbody
      split at h
      · cases h
        exact hbody
      · split at h
        · exact absurd h afterMapLimit_ne_ok
        · cases h

-- A transaction that nothing happens to is as good as what is done in it.
theorem read_of_ok (operation : String) (h : body e = .ok (a, e')) :
    e.read operation {} body = (.ok a, e') := by
  simp only [read, h]

theorem read_of_error (operation : String) (h : body e = .error error) :
    e.read operation {} body = (.error error, e) := by
  simp only [read, h]

theorem body_of_read_error (h : e.read operation {} body = (.error error, e')) :
    body e = .error error := by
  cases hbody : body e with
  | ok done =>
    rw [read_of_ok operation hbody] at h
    cases h
  | error cause =>
    rw [read_of_error operation hbody] at h
    cases h
    rfl

theorem write_of_ok (operation : String) (h : body e = .ok (a, e')) :
    e.write operation {} body = (.ok a, e') := by
  simp only [write, h]

theorem write_of_error (operation : String) (h : body e = .error error)
    (hlimit : error.isMapLimit = false) : e.write operation {} body = (.error error, e) := by
  simp only [write, h, hlimit, Bool.false_eq_true, if_false]

theorem write_of_full (operation : String) (h : body e = .error error)
    (hlimit : error.isMapLimit = true) : e.write operation {} body =
      (.error (.capacityExhausted operation (e.grow e.mapSize).mapSize), e.grow e.mapSize) := by
  simp only [write, h, hlimit, if_true, afterMapLimit]

theorem write_of_mapFull (operation : String)
    (h : body e = .error (.engine operation .mapFull)) : e.write operation {} body =
      (.error (.capacityExhausted operation (e.grow e.mapSize).mapSize), e.grow e.mapSize) :=
  write_of_full operation h rfl

-- A failed write leaves the map larger at most.
theorem write_eq_error (h : e.write operation {} body = (.error error, e')) :
    e.Keeps e' ∧ ∃ cause, body e = .error cause ∧
      (cause.isMapLimit = false ∧ error = cause ∨
        cause.isMapLimit = true ∧ error = .capacityExhausted operation e'.mapSize) := by
  cases hbody : body e with
  | ok done =>
    rw [write_of_ok operation hbody] at h
    cases h
  | error cause =>
    cases hlimit : cause.isMapLimit with
    | true =>
      rw [write_of_full operation hbody hlimit] at h
      cases h
      exact ⟨keeps_grow e e.mapSize, _, rfl, .inr ⟨hlimit, rfl⟩⟩
    | false =>
      rw [write_of_error operation hbody hlimit] at h
      cases h
      exact ⟨Keeps.refl e, _, rfl, .inl ⟨hlimit, rfl⟩⟩

end Transactions

theorem get_keeps {result : Except StoreError (Option Record)}
    (h : e.get table key = (result, e')) : e.Keeps e' := by
  cases result with
  | error error =>
    rcases checked_eq_error h with h | rfl
    · rw [read_eq_error h]
      exact Keeps.refl e
    · exact Keeps.refl _
  | ok stored =>
    obtain ⟨⟨rows, opened⟩, hopened, h⟩ := bind_eq_ok_iff.mp (read_eq_ok (checked_eq_ok h))
    have hkeeps := (openTable_eq_ok hopened).1
    cases rows with
    | none =>
      cases h
      exact hkeeps
    | some rows =>
      obtain ⟨found, _, h⟩ := bind_eq_ok_iff.mp h
      cases h
      exact hkeeps

theorem held_of_get {stored : Option Record} (h : e.get table key = (.ok stored, e')) :
    e.held table key = .ok stored := by
  obtain ⟨⟨rows, opened⟩, hopened, h⟩ := bind_eq_ok_iff.mp (read_eq_ok (checked_eq_ok h))
  obtain ⟨_, _, hrows, _⟩ := openTable_eq_ok hopened
  cases rows with
  | none =>
    cases h
    simp [held, contents, ← hrows, findRow]
  | some rows =>
    obtain ⟨found, hfound, h⟩ := bind_eq_ok_iff.mp h
    cases h
    simpa [held, contents, ← hrows] using hfound

section Put

variable {fresh : Option (List String)}

theorem put_eq_ok (h : e.put table key record fresh = (.ok (), e')) :
    e.Writes table key record e' ∧ ∃ stored, e.held table key = .ok stored ∧
      ∀ found ∈ stored, checkFresh table (fresh.getD []) found = .ok () := by
  obtain ⟨⟨rows, opened⟩, hopened, h⟩ := bind_eq_ok_iff.mp (write_eq_ok (checked_eq_ok h))
  obtain ⟨rfl, hsize, hslots, hseat, htables⟩ := createTable_eq_ok hopened
  obtain ⟨stored, hstored, h⟩ := bind_eq_ok_iff.mp h
  cases stored with
  | none =>
    obtain ⟨after, hafter, h⟩ := bind_eq_ok_iff.mp h
    cases h
    obtain ⟨hfits, rfl⟩ := storeRow_eq_ok hafter
    exact ⟨⟨htables _, hsize ▸ hfits, hslots, hseat⟩, none, hstored, by simp⟩
  | some found =>
    obtain ⟨_, hfresh, h⟩ := bind_eq_ok_iff.mp h
    obtain ⟨after, hafter, h⟩ := bind_eq_ok_iff.mp h
    cases h
    obtain ⟨hfits, rfl⟩ := storeRow_eq_ok hafter
    refine ⟨⟨?_, hsize ▸ hfits, hslots, hseat⟩, some found, hstored, by simpa using hfresh⟩
    simp only [setRows, OrderedMap.insert_insert, OrderedMap.erase_insert]
    exact htables _

theorem put_eq_error {error : StoreError} (h : e.put table key record fresh = (.error error, e')) :
    e.Keeps e' := by
  rcases checked_eq_error h with h | rfl
  · exact (write_eq_error h).1
  · exact Keeps.refl _

theorem put_of_invalid {error : StoreError} (h : checkTable table = .error error) :
    e.put table key record fresh = (.error error, e) := by
  simp only [put, checked, h]

-- Where nothing is stored, a record fails to be stored only for want of a slot or
-- of room.
theorem put_error_of_vacant {error : StoreError} (hvalid : checkTable table = .ok ())
    (hvacant : e.held table key = .ok none)
    (h : e.put table key record fresh = (.error error, e')) :
    error = .engine "create table" .tablesFull ∨
      error = .capacityExhausted "put" e'.mapSize := by
  rw [put, checked_of_valid _ hvalid] at h
  obtain ⟨_, cause, hbody, hcause⟩ := write_eq_error h
  rcases bind_eq_error_iff.mp hbody with hcreate | ⟨⟨rows, opened⟩, hopened, hbody⟩
  · rcases bind_eq_error_iff.mp hcreate with hslot | ⟨_, _, hrows⟩
    · rw [takeSlot_eq_error hslot] at hcause
      rcases hcause with ⟨_, rfl⟩ | ⟨hlimit, _⟩
      · exact .inl rfl
      · cases hlimit
    · split at hrows <;> cases hrows
  · obtain ⟨rfl, _⟩ := createTable_eq_ok hopened
    rcases bind_eq_error_iff.mp hbody with hfound | ⟨stored, hfound, hbody⟩
    · rw [show findRow table (e.contents table) key = .ok none from hvacant] at hfound
      cases hfound
    · rw [show findRow table (e.contents table) key = .ok none from hvacant] at hfound
      cases hfound
      rcases bind_eq_error_iff.mp hbody with hrow | ⟨_, _, hdone⟩
      · rw [storeRow_eq_error hrow] at hcause
        rcases hcause with ⟨hlimit, _⟩ | ⟨_, hgrown⟩
        · cases hlimit
        · exact .inr hgrown
      · cases hdone

theorem not_isFreshViolation_of_vacant {error : StoreError} (hvacant : e.held table key = .ok none)
    (h : e.put table key record fresh = (.error error, e')) : error.isFreshViolation = false := by
  cases hvalid : checkTable table with
  | error invalid =>
    rw [put_of_invalid hvalid] at h
    obtain ⟨why, rfl⟩ := checkTable_eq_error hvalid
    cases h
    rfl
  | ok =>
    rcases put_error_of_vacant hvalid hvacant h with rfl | rfl
    · rfl
    · rfl

end Put

section Update

variable {changes : Changes} {expected : Option Record}

theorem update_eq_ok (h : e.update table key changes expected = (.ok record, e')) :
    e.Writes table key record e' ∧ ∃ stored, e.held table key = .ok (some stored) ∧
      checkExpected table expected stored = .ok () ∧ changes.apply stored = .ok record := by
  obtain ⟨⟨rows, opened⟩, hopened, h⟩ := bind_eq_ok_iff.mp (write_eq_ok (checked_eq_ok h))
  obtain ⟨hkeeps, hsize, hrows, hseat⟩ := openTable_eq_ok hopened
  cases rows with
  | none => cases h
  | some rows =>
    have hcontents := contents_of_some hrows.symm
    obtain ⟨found, hfound, h⟩ := bind_eq_ok_iff.mp h
    cases found with
    | none => cases h
    | some stored =>
      obtain ⟨_, hexpected, h⟩ := bind_eq_ok_iff.mp h
      obtain ⟨result, hresult, h⟩ := bind_eq_ok_iff.mp h
      obtain ⟨after, hafter, h⟩ := bind_eq_ok_iff.mp h
      cases h
      obtain ⟨hfits, rfl⟩ := storeRow_eq_ok hafter
      refine ⟨⟨?_, hsize ▸ hfits, hkeeps.slots, hseat rfl⟩, stored, ?_, hexpected, ?_⟩
      · simp only [setRows, hkeeps.tables, hcontents]
      · rw [held, hcontents]
        exact hfound
      · unfold applyChanges at hresult
        split at hresult
        · rename_i heq
          cases hresult
          exact heq
        · cases hresult

theorem update_eq_error {error : StoreError}
    (h : e.update table key changes expected = (.error error, e')) : e.Keeps e' := by
  rcases checked_eq_error h with h | rfl
  · exact (write_eq_error h).1
  · exact Keeps.refl _

-- A revision that is expected is the stored one.
theorem revision_of_checkExpected {name : String} {n : Int64} {stored : Record}
    (h : checkExpected table (some (OrderedMap.insert ∅ name (.int n))) stored = .ok ()) :
    stored.get? name = some (.int n) := by
  simp only [checkExpected, Option.bind_some] at h
  split at h
  · cases h
  · rename_i hmismatch
    rw [Record.mismatch?, Option.map_eq_none_iff] at hmismatch
    have hagrees := List.find?_eq_none.mp hmismatch (name, .int n)
      ((OrderedMap.mem_toList_iff _ _ _).mpr (OrderedMap.get?_insert_self _ _ _))
    cases hget : stored.get? name with
    | none => simp [hget] at hagrees
    | some current =>
      simp only [hget, Bool.not_eq_true, Bool.not_eq_false'] at hagrees
      cases current <;> simp_all [Value.setEq]

end Update

end Environment

end LightningRecords

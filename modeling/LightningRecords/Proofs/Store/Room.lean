import LightningRecords.Proofs.Store.Rows

namespace LightningRecords

-- The rule of an engine that refuses a row for nothing but its own length.
def Capacity.IsByLength (capacity : Capacity) : Prop :=
  ∀ mapSize tables, capacity.isFull mapSize tables = false

def Capacity.byLength : Capacity := ⟨fun _ _ => false⟩

namespace Environment

variable {e e' : Environment} {table : String} {key : Key} {record found : Record}
  {stored : Option Record} {rows : Table}

-- The table has a slot or can have one.
def HasRoom (e : Environment) (table : String) : Prop :=
  table ∈ e.slots ∨ e.slots.length < e.config.maxTables.toNat

-- A table has been used, and these are its rows now. Nothing else has changed, and
-- nothing at all has been taken for a table that had a slot.
structure Serves (e : Environment) (table : String) (rows : Table) (e' : Environment) : Prop where
  config : e'.config = e.config
  mapSize : e'.mapSize = e.mapSize
  capacity : e'.capacity = e.capacity
  slots : e'.slots = e.slots ∨ table ∉ e.slots ∧ e'.slots = e.slots ++ [table]
  contents : e'.contents table = rows
  others : ∀ other, other ≠ table → e'.contents other = e.contents other

theorem Serves.refl (e : Environment) (table : String) : e.Serves table (e.contents table) e where
  config := rfl
  mapSize := rfl
  capacity := rfl
  slots := .inl rfl
  contents := rfl
  others := fun _ _ => rfl

theorem Serves.setRows (h : e.Serves table rows e') (later : Table) :
    e.Serves table later (e'.setRows table later) where
  config := h.config
  mapSize := h.mapSize
  capacity := h.capacity
  slots := h.slots
  contents := by simp [Environment.contents, Environment.setRows]
  others := by
    intro other hne
    rw [← h.others other hne]
    simp [Environment.contents, Environment.setRows, hne]

-- The store with a slot for the table.
def seated (e : Environment) (table : String) : Environment :=
  if table ∈ e.slots then e else { e with slots := e.slots ++ [table] }

-- The store when the table was looked for. One that does not exist gets no slot.
def opened (e : Environment) (table : String) : Environment :=
  if (e.tables.get? table).isSome then e.seated table else e

-- The store with a record in its table and under its key.
def deposit (e : Environment) (table : String) (key : Key) (record : Record) : Environment :=
  (e.seated table).setRows table ((e.contents table).insert key.bytes record.encode)

-- There is no room in the map for a record under a key.
def IsFullFor (e : Environment) (table : String) (key : Key) (record : Record) : Prop :=
  e.isFull record.encode.length (e.deposit table key record).tables = true

instance (e : Environment) (table : String) (key : Key) (record : Record) :
    Decidable (e.IsFullFor table key record) := inferInstanceAs (Decidable (_ = true))

theorem not_isFullFor_iff : ¬e.IsFullFor table key record ↔
    record.encode.length ≤ e.mapSize.toNat ∧
      e.capacity.isFull e.mapSize (e.deposit table key record).tables = false := by
  rw [IsFullFor, Bool.not_eq_true, isFull_eq_false_iff]

theorem isFullFor_iff (h : e.capacity.IsByLength) :
    e.IsFullFor table key record ↔ e.mapSize.toNat < record.encode.length := by
  simp [IsFullFor, isFull, h e.mapSize]

theorem seated_of_mem (h : table ∈ e.slots) : e.seated table = e := if_pos h

theorem opened_of_mem (h : table ∈ e.slots) : e.opened table = e := by
  rw [opened, seated_of_mem h, ite_self]

theorem serves_seated (e : Environment) (table : String) :
    e.Serves table (e.contents table) (e.seated table) := by
  unfold seated
  split
  · exact .refl e table
  · rename_i hseat
    exact ⟨rfl, rfl, rfl, .inr ⟨hseat, rfl⟩, rfl, fun _ _ => rfl⟩

theorem serves_opened (e : Environment) (table : String) :
    e.Serves table (e.contents table) (e.opened table) := by
  unfold opened
  split
  · exact e.serves_seated table
  · exact .refl e table

theorem serves_deposit (e : Environment) (table : String) (key : Key) (record : Record) :
    e.Serves table ((e.contents table).insert key.bytes record.encode)
      (e.deposit table key record) :=
  (e.serves_seated table).setRows _

theorem tables_seated (e : Environment) (table : String) :
    (e.seated table).tables = e.tables := by
  unfold seated
  split <;> rfl

theorem takeSlot_of_room (operation : String) (h : e.HasRoom table) :
    e.takeSlot operation table = .ok (e.seated table) := by
  by_cases hseat : table ∈ e.slots
  · rw [takeSlot_of_mem operation hseat, seated_of_mem hseat]
  · have hfree : ¬e.config.maxTables.toNat ≤ e.slots.length := by
      have hlength := h.resolve_left hseat
      omega
    simp [takeSlot, seated, hseat, hfree]

theorem openTable_of_room (h : e.HasRoom table) :
    e.openTable table = .ok (e.tables.get? table, e.opened table) := by
  simp only [openTable, takeSlot_of_room "open table" h, bind, Except.bind, opened]
  cases e.tables.get? table <;> rfl

-- The table exists afterwards, which makes no difference once it has other rows.
theorem createTable_of_room (h : e.HasRoom table) :
    ∃ created, e.createTable table = .ok (e.contents table, created) ∧
      ∀ rows, created.setRows table rows = (e.seated table).setRows table rows := by
  simp only [createTable, takeSlot_of_room "create table" h, bind, Except.bind]
  cases hrows : e.tables.get? table with
  | some rows =>
    rw [contents_of_some hrows]
    exact ⟨_, rfl, fun _ => rfl⟩
  | none =>
    rw [contents_of_none hrows]
    refine ⟨_, rfl, fun rows => ?_⟩
    simp only [setRows, OrderedMap.insert_insert]

theorem storeRow_eq (operation : String) {rows : Table} {keyBytes bytes : Bytes}
    {stored : Environment} (h : e.setRows table (rows.insert keyBytes bytes) = stored) :
    e.storeRow operation table rows keyBytes bytes =
      if stored.isFull bytes.length stored.tables then .error (.engine operation .mapFull)
      else .ok stored := by
  subst h
  rfl

theorem isFull_deposit (e : Environment) (table : String) (key : Key) (record : Record)
    (length : Nat) (tables : Tables) :
    (e.deposit table key record).isFull length tables = e.isFull length tables := by
  have hserves := e.serves_deposit table key record
  simp only [isFull, hserves.mapSize, hserves.capacity]

-- Wherever a record is put into its table, it is stored if there is room for it.
theorem storeRow_eq_deposit (operation : String) {rows : Table}
    (h : e'.setRows table (rows.insert key.bytes record.encode) = e.deposit table key record) :
    e'.storeRow operation table rows key.bytes record.encode =
      if e.IsFullFor table key record then .error (.engine operation .mapFull)
      else .ok (e.deposit table key record) := by
  simp only [storeRow_eq operation h, isFull_deposit]
  rfl

theorem hasRoom_of_takeSlot {operation : String} (h : e.takeSlot operation table = .ok e') :
    e.HasRoom table := by
  unfold takeSlot at h
  split at h
  · rename_i hseated
    exact .inl (by simpa using hseated)
  · split at h
    · cases h
    · exact .inr (by omega)

theorem hasRoom_of_openTable {rows : Option Table} (h : e.openTable table = .ok (rows, e')) :
    e.HasRoom table := by
  obtain ⟨_, hopened, _⟩ := bind_eq_ok_iff.mp h
  exact hasRoom_of_takeSlot hopened

theorem hasRoom_of_createTable (h : e.createTable table = .ok (rows, e')) : e.HasRoom table := by
  obtain ⟨_, hopened, _⟩ := bind_eq_ok_iff.mp h
  exact hasRoom_of_takeSlot hopened

theorem get_eq_opened (hvalid : checkTable table = .ok ()) (hroom : e.HasRoom table)
    (hheld : e.held table key = .ok stored) : e.get table key = (.ok stored, e.opened table) := by
  have hfound : findRow table (e.contents table) key = .ok stored := hheld
  rw [get, checked_of_valid _ hvalid]
  cases hrows : e.tables.get? table with
  | some rows =>
    rw [contents_of_some hrows] at hfound
    simp only [read, openTable_of_room hroom, hrows, bind, Except.bind, hfound]
  | none =>
    rw [contents_of_none hrows] at hfound
    cases hfound
    simp only [read, openTable_of_room hroom, hrows, bind, Except.bind]

theorem get_of_room (hvalid : checkTable table = .ok ()) (hroom : e.HasRoom table)
    (hheld : e.held table key = .ok stored) :
    ∃ e', e.get table key = (.ok stored, e') ∧ e.Serves table (e.contents table) e' ∧
      (table ∈ e.slots → e' = e) :=
  ⟨_, get_eq_opened hvalid hroom hheld, e.serves_opened table, opened_of_mem⟩

-- Reading from a table that has a slot takes nothing.
theorem get_of_mem (hvalid : checkTable table = .ok ()) (hseat : table ∈ e.slots)
    (hheld : e.held table key = .ok stored) : e.get table key = (.ok stored, e) := by
  rw [get_eq_opened hvalid (.inl hseat) hheld, opened_of_mem hseat]

theorem get_again {stored : Option Record} (h : e.get table key = (.ok stored, e')) :
    e'.get table key = (.ok stored, e') := by
  have hheld := held_of_get h
  have hkeeps := get_keeps h
  have hvalid : checkTable table = .ok () := checkTable_of_checked h
  obtain ⟨⟨rows, opened⟩, hopened, hdone⟩ := bind_eq_ok_iff.mp (read_eq_ok (checked_eq_ok h))
  obtain ⟨_, _, _, hseat⟩ := openTable_eq_ok hopened
  cases rows with
  | none =>
    have hsame : e' = e := by
      obtain ⟨_, _, hopened⟩ := bind_eq_ok_iff.mp hopened
      split at hopened
      · cases hopened
      · cases hopened
        cases hdone
        rfl
    rw [hsame] at h ⊢
    exact h
  | some rows =>
    obtain ⟨found, _, hdone⟩ := bind_eq_ok_iff.mp hdone
    cases hdone
    rw [← hkeeps.held] at hheld
    exact get_of_mem hvalid (hseat rfl) hheld

theorem Writes.get (h : e.Writes table key record e') (hs : record.Storable)
    (hvalid : checkTable table = .ok ()) : e'.get table key = (.ok (some record), e') :=
  get_of_mem hvalid h.seat (h.held_self hs)

section Put

variable {fresh : Option (List String)}

-- A record that may be put under a key is stored there, unless there is no room for it.
theorem put_eq_ite (hvalid : checkTable table = .ok ()) (hroom : e.HasRoom table)
    (hheld : e.held table key = .ok stored)
    (hfresh : ∀ found ∈ stored, checkFresh table (fresh.getD []) found = .ok ()) :
    e.put table key record fresh =
      if e.IsFullFor table key record then
        (.error (.capacityExhausted "put" (e.grow e.mapSize).mapSize), e.grow e.mapSize)
      else (.ok (), e.deposit table key record) := by
  obtain ⟨created, hcreated, hsame⟩ := createTable_of_room hroom
  have hfound : findRow table (e.contents table) key = .ok stored := hheld
  rw [put, checked_of_valid _ hvalid]
  cases stored with
  | none =>
    have hrow : created.storeRow "put" table (e.contents table) key.bytes record.encode = _ :=
      storeRow_eq_deposit "put" (hsame _)
    by_cases hfull : e.IsFullFor table key record
    · rw [if_pos hfull] at hrow ⊢
      refine write_of_mapFull "put" ?_
      simp only [hcreated, bind, Except.bind, hfound, hrow]
    · rw [if_neg hfull] at hrow ⊢
      refine write_of_ok "put" ?_
      simp only [hcreated, bind, Except.bind, hfound, hrow]
  | some found =>
    let erased := (e.contents table).erase key.bytes
    have hdeposit : (created.setRows table erased).setRows table
        (erased.insert key.bytes record.encode) = e.deposit table key record := by
      have hrows : erased.insert key.bytes record.encode =
          (e.contents table).insert key.bytes record.encode := OrderedMap.erase_insert _ _ _
      rw [hrows, deposit, ← hsame]
      simp only [setRows, OrderedMap.insert_insert]
    have hrow := storeRow_eq_deposit "put" hdeposit
    by_cases hfull : e.IsFullFor table key record
    · rw [if_pos hfull] at hrow ⊢
      refine write_of_mapFull "put" ?_
      simp only [hcreated, bind, Except.bind, hfound, hfresh found rfl]
      rw [hrow]
    · rw [if_neg hfull] at hrow ⊢
      refine write_of_ok "put" ?_
      simp only [hcreated, bind, Except.bind, hfound, hfresh found rfl]
      rw [hrow]

theorem put_eq_deposit (hvalid : checkTable table = .ok ()) (hroom : e.HasRoom table)
    (hheld : e.held table key = .ok stored)
    (hfresh : ∀ found ∈ stored, checkFresh table (fresh.getD []) found = .ok ())
    (hfits : ¬e.IsFullFor table key record) :
    e.put table key record fresh = (.ok (), e.deposit table key record) := by
  rw [put_eq_ite hvalid hroom hheld hfresh, if_neg hfits]

-- A record that there is no room for makes the map grow, and is not stored.
theorem put_of_full (hvalid : checkTable table = .ok ()) (hroom : e.HasRoom table)
    (hheld : e.held table key = .ok stored)
    (hfresh : ∀ found ∈ stored, checkFresh table (fresh.getD []) found = .ok ())
    (hfull : e.IsFullFor table key record) :
    e.put table key record fresh =
      (.error (.capacityExhausted "put" (e.grow e.mapSize).mapSize), e.grow e.mapSize) := by
  rw [put_eq_ite hvalid hroom hheld hfresh, if_pos hfull]

theorem hasRoom_of_put (h : e.put table key record fresh = (.ok (), e')) : e.HasRoom table := by
  obtain ⟨_, hcreated, _⟩ := bind_eq_ok_iff.mp (write_eq_ok (checked_eq_ok h))
  exact hasRoom_of_createTable hcreated

-- A record that has an attribute which must be fresh stays, and is told.
theorem put_of_refused (hvalid : checkTable table = .ok ())
    (hroom : e.HasRoom table) (hheld : e.held table key = .ok (some found)) {name : String}
    (hname : (fresh.getD []).find? found.contains = some name) :
    e.put table key record fresh =
      (.error (.conflict table (.freshViolation name) found), e) := by
  obtain ⟨created, hcreated, _⟩ := createTable_of_room hroom
  have hfound : findRow table (e.contents table) key = .ok (some found) := hheld
  rw [put, checked_of_valid _ hvalid]
  simp only [write, hcreated, bind, Except.bind, hfound, checkFresh, hname, StoreError.isMapLimit,
    Bool.false_eq_true, if_false]

-- A record that has the attribute which must be fresh stays, and is told.
theorem put_of_taken {found : Record} {name : String} (hvalid : checkTable table = .ok ())
    (hseat : table ∈ e.slots) (hheld : e.held table key = .ok (some found))
    (hname : found.contains name = true) :
    e.put table key record (some [name]) =
      (.error (.conflict table (.freshViolation name) found), e) := by
  exact put_of_refused hvalid (.inl hseat) hheld (List.find?_cons_of_pos hname)

end Put

section Update

variable {changes : Changes} {expected : Option Record}

-- An update that is refused leaves everything as it was.
theorem update_of_vacant (hvalid : checkTable table = .ok ()) (hroom : e.HasRoom table)
    (hheld : e.held table key = .ok none) :
    e.update table key changes expected = (.error (.notFound table), e) := by
  have hfound : findRow table (e.contents table) key = .ok none := hheld
  rw [update, checked_of_valid _ hvalid]
  cases hrows : e.tables.get? table with
  | some rows =>
    have hcontents := contents_of_some hrows
    rw [hcontents] at hfound
    simp only [write, openTable_of_room hroom, hrows, bind, Except.bind, hfound,
      StoreError.isMapLimit, Bool.false_eq_true, if_false]
  | none =>
    simp only [write, openTable_of_room hroom, hrows, bind, Except.bind, StoreError.isMapLimit,
      Bool.false_eq_true, if_false]

theorem update_of_unexpected (hvalid : checkTable table = .ok ()) (hroom : e.HasRoom table)
    (hheld : e.held table key = .ok (some found)) {name : String}
    (hname : expected.bind found.mismatch? = some name) :
    e.update table key changes expected =
      (.error (.conflict table (.expectMismatch name) found), e) := by
  have hfound : findRow table (e.contents table) key = .ok (some found) := hheld
  rw [update, checked_of_valid _ hvalid]
  simp only [write, openTable_of_room hroom, rows_of_held hheld, bind, Except.bind, hfound,
    checkExpected, hname, StoreError.isMapLimit, Bool.false_eq_true, if_false]

theorem update_of_misfit (hvalid : checkTable table = .ok ()) (hroom : e.HasRoom table)
    (hheld : e.held table key = .ok (some found)) (hexpected : expected.bind found.mismatch? = none)
    {error : ChangeError} (herror : changes.apply found = .error error) :
    e.update table key changes expected = (.error (.invalid (.change error)), e) := by
  have hfound : findRow table (e.contents table) key = .ok (some found) := hheld
  rw [update, checked_of_valid _ hvalid]
  simp only [write, openTable_of_room hroom, rows_of_held hheld, bind, Except.bind, hfound,
    checkExpected, hexpected, applyChanges, herror, StoreError.isMapLimit, Bool.false_eq_true,
    if_false]

-- As `put_eq_ite`.
theorem update_eq_ite (hvalid : checkTable table = .ok ()) (hroom : e.HasRoom table)
    (hheld : e.held table key = .ok (some found)) (hexpected : expected.bind found.mismatch? = none)
    (happly : changes.apply found = .ok record) :
    e.update table key changes expected =
      if e.IsFullFor table key record then
        (.error (.capacityExhausted "update" (e.grow e.mapSize).mapSize), e.grow e.mapSize)
      else (.ok record, e.deposit table key record) := by
  have hfound : findRow table (e.contents table) key = .ok (some found) := hheld
  have hrows := rows_of_held hheld
  have hopened : e.opened table = e.seated table := by simp [opened, hrows]
  have hrow : (e.seated table).storeRow "update" table (e.contents table) key.bytes record.encode =
      _ := storeRow_eq_deposit "update" rfl
  rw [update, checked_of_valid _ hvalid]
  by_cases hfull : e.IsFullFor table key record
  · rw [if_pos hfull] at hrow ⊢
    refine write_of_mapFull "update" ?_
    simp only [openTable_of_room hroom, hopened, hrows, bind, Except.bind, hfound, checkExpected,
      hexpected, applyChanges, happly, hrow]
  · rw [if_neg hfull] at hrow ⊢
    refine write_of_ok "update" ?_
    simp only [openTable_of_room hroom, hopened, hrows, bind, Except.bind, hfound, checkExpected,
      hexpected, applyChanges, happly, hrow]

theorem update_eq_deposit (hvalid : checkTable table = .ok ()) (hroom : e.HasRoom table)
    (hheld : e.held table key = .ok (some found)) (hexpected : expected.bind found.mismatch? = none)
    (happly : changes.apply found = .ok record) (hfits : ¬e.IsFullFor table key record) :
    e.update table key changes expected = (.ok record, e.deposit table key record) := by
  rw [update_eq_ite hvalid hroom hheld hexpected happly, if_neg hfits]

theorem update_of_full (hvalid : checkTable table = .ok ()) (hroom : e.HasRoom table)
    (hheld : e.held table key = .ok (some found)) (hexpected : expected.bind found.mismatch? = none)
    (happly : changes.apply found = .ok record) (hfull : e.IsFullFor table key record) :
    e.update table key changes expected =
      (.error (.capacityExhausted "update" (e.grow e.mapSize).mapSize), e.grow e.mapSize) := by
  rw [update_eq_ite hvalid hroom hheld hexpected happly, if_pos hfull]

theorem hasRoom_of_update (h : e.update table key changes expected = (.ok record, e')) :
    e.HasRoom table := by
  obtain ⟨_, hopened, _⟩ := bind_eq_ok_iff.mp (write_eq_ok (checked_eq_ok h))
  exact hasRoom_of_openTable hopened

end Update

theorem remove_of_room (hvalid : checkTable table = .ok ()) (hroom : e.HasRoom table) :
    ∃ e', e.remove table key = (.ok ((e.contents table).contains key.bytes), e') ∧
      e.Serves table ((e.contents table).erase key.bytes) e' := by
  have hserves := e.serves_opened table
  rw [remove, checked_of_valid _ hvalid]
  cases hrows : e.tables.get? table with
  | some rows =>
    rw [contents_of_some hrows]
    refine ⟨_, ?_, hserves.setRows _⟩
    simp only [write, openTable_of_room hroom, hrows, bind, Except.bind]
  | none =>
    have hcontents := contents_of_none hrows
    refine ⟨e.opened table, ?_, ?_⟩
    · rw [hcontents]
      simp only [write, openTable_of_room hroom, hrows, bind, Except.bind]
      rfl
    · rw [hcontents] at hserves ⊢
      exact hserves

theorem length_of_room (hvalid : checkTable table = .ok ()) (hroom : e.HasRoom table) :
    ∃ e', e.length table = (.ok (e.contents table).size, e') ∧
      e.Serves table (e.contents table) e' := by
  refine ⟨e.opened table, ?_, e.serves_opened table⟩
  rw [length, checked_of_valid _ hvalid]
  cases hrows : e.tables.get? table with
  | some rows =>
    rw [contents_of_some hrows]
    simp only [read, openTable_of_room hroom, hrows, bind, Except.bind]
  | none =>
    rw [contents_of_none hrows]
    simp only [read, openTable_of_room hroom, hrows, bind, Except.bind]
    rfl

end Environment

end LightningRecords

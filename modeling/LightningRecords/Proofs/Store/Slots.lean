import LightningRecords.Proofs.Store.Seats
import Mathlib.Data.List.Nodup

namespace LightningRecords

namespace Command

-- What a command calls the opening of its table.
def opening : Command → String
  | .put .. => "create table"
  | _ => "open table"

-- A query for no rows does not look for its table.
def Looks : Command → Prop
  | .query _ asked => asked.limit ≠ some 0
  | _ => True

end Command

namespace Environment

variable {e e' : Environment} {table other : String} {key : Key} {record : Record}

def Exists (e : Environment) (table : String) : Prop := (e.tables.get? table).isSome = true

instance (e : Environment) (table : String) : Decidable (e.Exists table) :=
  inferInstanceAs (Decidable (_ = true))

-- A table has been used with success: there was room for it, and if it exists now, it
-- has a slot. No table is gone.
structure Seats (e : Environment) (table : String) (e' : Environment) : Prop where
  room : e.HasRoom table
  config : e'.config = e.config
  slots : e'.slots = if e'.Exists table then (e.seated table).slots else e.slots
  exist : ∀ other, e.Exists other → e'.Exists other

section Seats

theorem exists_setRows (rows : Table) :
    (e.setRows table rows).Exists other ↔ other = table ∨ e.Exists other := by
  unfold Exists setRows
  by_cases h : other = table <;> simp [h]

theorem exists_seated : (e.seated table).Exists other ↔ e.Exists other := by
  rw [Exists, tables_seated, Exists]

theorem seats_opened (hroom : e.HasRoom table) : e.Seats table (e.opened table) := by
  unfold opened
  split
  · rename_i hexists
    refine ⟨hroom, (e.serves_seated table).config, ?_, fun _ h => exists_seated.mpr h⟩
    rw [if_pos (exists_seated.mpr hexists)]
  · rename_i hexists
    exact ⟨hroom, rfl, (if_neg hexists).symm, fun _ h => h⟩

theorem seats_openTable {rows : Option Table} (h : e.openTable table = .ok (rows, e')) :
    e.Seats table e' ∧ (rows.isSome = true → e'.Exists table) := by
  have hroom := hasRoom_of_openTable h
  rw [openTable_of_room hroom] at h
  cases h
  have hseats := seats_opened hroom
  exact ⟨hseats, hseats.exist table⟩

theorem seats_createTable {rows : Table} (h : e.createTable table = .ok (rows, e')) :
    e.Seats table e' ∧ e'.Exists table := by
  have hroom := hasRoom_of_createTable h
  have hconfig := (e.serves_seated table).config
  obtain ⟨opened, hopened, h⟩ := bind_eq_ok_iff.mp h
  rw [takeSlot_of_room "create table" hroom] at hopened
  cases hopened
  split at h
  · rename_i hrows
    cases h
    have hexists : (e.seated table).Exists table := exists_seated.mpr (by simp [Exists, hrows])
    exact ⟨⟨hroom, hconfig, (if_pos hexists).symm, fun _ h => exists_seated.mpr h⟩, hexists⟩
  · cases h
    have hexists : ((e.seated table).setRows table ∅).Exists table :=
      (exists_setRows _).mpr (.inl rfl)
    exact ⟨⟨hroom, hconfig, (if_pos hexists).symm,
      fun _ h => (exists_setRows _).mpr (.inr (exists_seated.mpr h))⟩, hexists⟩

-- Other rows in a table that is there make no difference.
theorem Seats.setRows (h : e.Seats table e') (hexists : e'.Exists table) (rows : Table) :
    e.Seats table (e'.setRows table rows) where
  room := h.room
  config := h.config
  slots := by
    have hslots := h.slots
    rw [if_pos hexists] at hslots
    rw [if_pos ((exists_setRows rows).mpr (.inl rfl))]
    exact hslots
  exist := fun other hother => (exists_setRows rows).mpr (.inr (h.exist other hother))

theorem get_seats {stored : Option Record} (h : e.get table key = (.ok stored, e')) :
    e.Seats table e' := by
  obtain ⟨⟨rows, opened⟩, hopened, h⟩ := bind_eq_ok_iff.mp (read_eq_ok (checked_eq_ok h))
  have hseats := (seats_openTable hopened).1
  cases rows with
  | none =>
    cases h
    exact hseats
  | some rows =>
    obtain ⟨_, _, h⟩ := bind_eq_ok_iff.mp h
    cases h
    exact hseats

theorem put_seats {fresh : Option (List String)} (h : e.put table key record fresh = (.ok (), e')) :
    e.Seats table e' := by
  obtain ⟨⟨rows, opened⟩, hopened, h⟩ := bind_eq_ok_iff.mp (write_eq_ok (checked_eq_ok h))
  obtain ⟨hseats, hexists⟩ := seats_createTable hopened
  obtain ⟨stored, _, h⟩ := bind_eq_ok_iff.mp h
  cases stored with
  | none =>
    obtain ⟨_, hrow, h⟩ := bind_eq_ok_iff.mp h
    cases h
    rw [(storeRow_eq_ok hrow).2]
    exact hseats.setRows hexists _
  | some found =>
    obtain ⟨_, _, h⟩ := bind_eq_ok_iff.mp h
    obtain ⟨_, hrow, h⟩ := bind_eq_ok_iff.mp h
    cases h
    rw [(storeRow_eq_ok hrow).2]
    exact (hseats.setRows hexists _).setRows ((exists_setRows _).mpr (.inl rfl)) _

theorem update_seats {changes : Changes} {expected : Option Record}
    (h : e.update table key changes expected = (.ok record, e')) : e.Seats table e' := by
  obtain ⟨⟨rows, opened⟩, hopened, h⟩ := bind_eq_ok_iff.mp (write_eq_ok (checked_eq_ok h))
  obtain ⟨hseats, hexists⟩ := seats_openTable hopened
  cases rows with
  | none => cases h
  | some rows =>
    obtain ⟨found, _, h⟩ := bind_eq_ok_iff.mp h
    cases found with
    | none => cases h
    | some stored =>
      obtain ⟨_, _, h⟩ := bind_eq_ok_iff.mp h
      obtain ⟨_, _, h⟩ := bind_eq_ok_iff.mp h
      obtain ⟨_, hrow, h⟩ := bind_eq_ok_iff.mp h
      cases h
      rw [(storeRow_eq_ok hrow).2]
      exact hseats.setRows (hexists rfl) _

theorem remove_seats {removed : Bool} (h : e.remove table key = (.ok removed, e')) :
    e.Seats table e' := by
  obtain ⟨⟨rows, opened⟩, hopened, h⟩ := bind_eq_ok_iff.mp (write_eq_ok (checked_eq_ok h))
  obtain ⟨hseats, hexists⟩ := seats_openTable hopened
  cases rows with
  | none =>
    cases h
    exact hseats
  | some rows =>
    cases h
    exact hseats.setRows (hexists rfl) _

theorem query_seats {asked : Query} {found : List Row} (hlimit : asked.limit ≠ some 0)
    (h : e.query table asked = (.ok found, e')) : e.Seats table e' := by
  have h := checked_eq_ok h
  rw [if_neg hlimit] at h
  obtain ⟨⟨rows, opened⟩, hopened, h⟩ := bind_eq_ok_iff.mp (read_eq_ok h)
  have hseats := (seats_openTable hopened).1
  cases rows with
  | none =>
    cases h
    exact hseats
  | some rows =>
    simp only at h
    split at h
    · cases h
    · obtain ⟨_, _, h⟩ := bind_eq_ok_iff.mp h
      cases h
      exact hseats

theorem length_seats {entries : Nat} (h : e.length table = (.ok entries, e')) :
    e.Seats table e' := by
  obtain ⟨⟨rows, opened⟩, hopened, h⟩ := bind_eq_ok_iff.mp (read_eq_ok (checked_eq_ok h))
  have hseats := (seats_openTable hopened).1
  cases rows <;> cases h <;> exact hseats

theorem stats_seats {stats : Stats} (h : e.stats table = (.ok stats, e')) : e.Seats table e' := by
  cases hlength : e.length table with
  | mk entries after =>
    simp only [Environment.stats, hlength] at h
    cases entries with
    | error error => cases h
    | ok entries =>
      cases h
      exact length_seats hlength

theorem obey_seats {c : Command} {result : c.Result} (hlooks : c.Looks)
    (h : e.obey c = (.ok result, e')) : e.Seats c.table e' := by
  cases c with
  | get table key => exact get_seats h
  | put table key record fresh => exact put_seats h
  | update table key changes expected => exact update_seats h
  | remove table key => exact remove_seats h
  | query table asked => exact query_seats hlooks h
  | length table => exact length_seats h
  | stats table => exact stats_seats h

end Seats

section Crowded

theorem takeSlot_of_crowded (operation : String) (h : ¬e.HasRoom table) :
    e.takeSlot operation table = .error (.engine operation .tablesFull) := by
  obtain ⟨hseat, hlength⟩ := not_or.mp h
  have hfull : e.config.maxTables.toNat ≤ e.slots.length := Nat.le_of_not_lt hlength
  simp [takeSlot, hseat, hfull]

theorem openTable_of_crowded (h : ¬e.HasRoom table) :
    e.openTable table = .error (.engine "open table" .tablesFull) := by
  rw [openTable, takeSlot_of_crowded _ h]
  rfl

theorem createTable_of_crowded (h : ¬e.HasRoom table) :
    e.createTable table = .error (.engine "create table" .tablesFull) := by
  rw [createTable, takeSlot_of_crowded _ h]
  rfl

-- A table that cannot have a slot is refused before anything is asked of its rows.
theorem obey_of_crowded {c : Command} (hlooks : c.Looks) (hvalid : checkTable c.table = .ok ())
    (h : ¬e.HasRoom c.table) :
    e.obey c = (.error (.engine c.opening .tablesFull), e) := by
  have hopen := openTable_of_crowded h
  have hcreate := createTable_of_crowded h
  cases c with simp only [Command.table] at hvalid hopen hcreate
  | get table key =>
    simp only [obey, get, checked_of_valid _ hvalid, read, hopen, bind, Except.bind, Command.opening]
  | put table key record fresh =>
    simp only [obey, put, checked_of_valid _ hvalid, write, hcreate, bind, Except.bind,
      StoreError.isMapLimit, EngineFailure.isMapLimit, Command.opening, Bool.false_eq_true,
      if_false]
  | update table key changes expected =>
    simp only [obey, update, checked_of_valid _ hvalid, write, hopen, bind, Except.bind,
      StoreError.isMapLimit, EngineFailure.isMapLimit, Command.opening, Bool.false_eq_true,
      if_false]
  | remove table key =>
    simp only [obey, remove, checked_of_valid _ hvalid, write, hopen, bind, Except.bind,
      StoreError.isMapLimit, EngineFailure.isMapLimit, Command.opening, Bool.false_eq_true,
      if_false]
  | query table asked =>
    have hlimit : asked.limit ≠ some 0 := hlooks
    simp only [obey, query, checked_of_valid _ hvalid, hlimit, if_false, read, hopen, bind,
      Except.bind, Command.opening]
  | length table =>
    simp only [obey, length, checked_of_valid _ hvalid, read, hopen, bind, Except.bind,
      Command.opening]
  | stats table =>
    simp only [obey, stats, length, checked_of_valid _ hvalid, read, hopen, bind, Except.bind,
      Except.map, Command.opening]

end Crowded

section Admits

variable {α β : Type} {x : Except StoreError α} {operation : String}

-- Whatever goes wrong, it is not for want of a slot.
def Admits (x : Except StoreError α) : Prop :=
  ∀ operation, x ≠ .error (.engine operation .tablesFull)

theorem admits_ok (a : α) : Admits (.ok a) := fun _ h => by cases h

theorem Admits.bind {f : α → Except StoreError β} (hx : Admits x)
    (hf : ∀ a, x = .ok a → Admits (f a)) : Admits (x >>= f) := by
  intro operation h
  rcases bind_eq_error_iff.mp h with h | ⟨a, ha, h⟩
  · exact hx operation h
  · exact hf a ha operation h

theorem Admits.map (hx : Admits x) (f : α → β) : Admits (x.map f) := by
  intro operation h
  cases x with
  | ok a => cases h
  | error error =>
    cases h
    exact hx operation rfl

theorem Admits.mapM {f : α → Except StoreError β} (hf : ∀ a, Admits (f a)) (items : List α) :
    Admits (items.mapM f) := by
  intro operation h
  obtain ⟨item, _, h⟩ := exists_of_mapM_eq_error h
  exact hf item operation h

theorem admits_openTable (hroom : e.HasRoom table) : Admits (e.openTable table) := by
  rw [openTable_of_room hroom]
  exact admits_ok _

theorem admits_createTable (hroom : e.HasRoom table) : Admits (e.createTable table) := by
  obtain ⟨_, hcreated, _⟩ := createTable_of_room hroom
  rw [hcreated]
  exact admits_ok _

theorem admits_decodeRow (table : String) (bytes : Bytes) : Admits (decodeRow table bytes) := by
  intro operation h
  unfold decodeRow at h
  split at h <;> cases h

theorem admits_findRow (table : String) (rows : Table) (key : Key) :
    Admits (findRow table rows key) := by
  unfold findRow
  split
  · exact (admits_decodeRow table _).map some
  · exact admits_ok none

theorem admits_checkFresh (table : String) (fresh : List String) (stored : Record) :
    Admits (checkFresh table fresh stored) := by
  intro operation h
  unfold checkFresh at h
  split at h <;> cases h

theorem admits_checkExpected (table : String) (expected : Option Record) (stored : Record) :
    Admits (checkExpected table expected stored) := by
  intro operation h
  unfold checkExpected at h
  split at h <;> cases h

theorem admits_applyChanges (changes : Changes) (stored : Record) :
    Admits (applyChanges changes stored) := by
  intro operation h
  unfold applyChanges at h
  split at h <;> cases h

theorem admits_storeRow {rows : Table} {keyBytes bytes : Bytes} {a : α} :
    Admits (e.storeRow operation table rows keyBytes bytes >>= fun after => .ok (a, after)) := by
  refine Admits.bind (fun label h => ?_) fun _ _ => admits_ok _
  cases storeRow_eq_error h

theorem admits_selectRows (table : String) (asked : Query) (rows : Table) :
    Admits (selectRows table asked rows) := by
  refine (Admits.mapM (fun row => ?_) _).bind fun _ _ => admits_ok _
  exact (admits_decodeRow table row.2).map _

variable {body : Environment → Except StoreError (α × Environment)}

theorem admits_checked {run : Except StoreError α × Environment} (h : Admits run.1) :
    Admits (e.checked table run).1 := by
  unfold checked
  split
  · exact h
  · rename_i hinvalid
    obtain ⟨_, rfl⟩ := checkTable_eq_error hinvalid
    exact fun _ h => by cases h

theorem admits_read (operation : String) (h : Admits (body e)) :
    Admits (e.read operation {} body).1 := fun label hread =>
  h label (body_of_read_error (Prod.ext hread rfl))

theorem admits_write (h : Admits (body e)) : Admits (e.write operation {} body).1 := by
  intro label hwrite
  obtain ⟨_, cause, hbody, hcause⟩ := write_eq_error (Prod.ext hwrite rfl)
  rcases hcause with ⟨_, rfl⟩ | ⟨_, hgrown⟩
  · exact h label hbody
  · cases hgrown

theorem admits_get (hroom : e.HasRoom table) : Admits (e.get table key).1 := by
  refine admits_checked (admits_read _ ((admits_openTable hroom).bind fun ⟨rows, opened⟩ _ => ?_))
  cases rows with
  | none => exact admits_ok _
  | some rows => exact (admits_findRow table rows key).bind fun _ _ => admits_ok _

theorem admits_put {fresh : Option (List String)} (hroom : e.HasRoom table) :
    Admits (e.put table key record fresh).1 := by
  refine admits_checked (admits_write ((admits_createTable hroom).bind fun ⟨rows, opened⟩ _ => ?_))
  refine (admits_findRow table rows key).bind fun stored _ => ?_
  cases stored with
  | none => exact admits_storeRow
  | some found =>
    refine (admits_checkFresh table _ found).bind fun _ _ => ?_
    exact admits_storeRow

theorem admits_update {changes : Changes} {expected : Option Record} (hroom : e.HasRoom table) :
    Admits (e.update table key changes expected).1 := by
  refine admits_checked (admits_write ((admits_openTable hroom).bind fun ⟨rows, opened⟩ _ => ?_))
  cases rows with
  | none => exact fun _ h => by cases h
  | some rows =>
    refine (admits_findRow table rows key).bind fun stored _ => ?_
    cases stored with
    | none => exact fun _ h => by cases h
    | some found =>
      refine (admits_checkExpected table expected found).bind fun _ _ => ?_
      refine (admits_applyChanges changes found).bind fun _ _ => ?_
      exact admits_storeRow

theorem admits_remove (hroom : e.HasRoom table) : Admits (e.remove table key).1 := by
  refine admits_checked (admits_write ((admits_openTable hroom).bind fun ⟨rows, opened⟩ _ => ?_))
  cases rows <;> exact admits_ok _

theorem admits_query {asked : Query} (hroom : e.HasRoom table) :
    Admits (e.query table asked).1 := by
  refine admits_checked ?_
  split
  · exact admits_ok _
  · refine admits_read _ ((admits_openTable hroom).bind fun ⟨rows, opened⟩ _ => ?_)
    cases rows with
    | none => exact admits_ok _
    | some rows =>
      simp only
      split
      · exact fun _ h => by cases h
      · exact (admits_selectRows table asked rows).bind fun _ _ => admits_ok _

theorem admits_length (hroom : e.HasRoom table) : Admits (e.length table).1 := by
  refine admits_checked (admits_read _ ((admits_openTable hroom).bind fun ⟨rows, opened⟩ _ => ?_))
  cases rows <;> exact admits_ok _

theorem admits_obey {c : Command} (hroom : e.HasRoom c.table) : Admits (e.obey c).1 := by
  cases c with
  | get table key => exact admits_get hroom
  | put table key record fresh => exact admits_put hroom
  | update table key changes expected => exact admits_update hroom
  | remove table key => exact admits_remove hroom
  | query table asked => exact admits_query hroom
  | length table => exact admits_length hroom
  | stats table => exact (admits_length hroom).map _

end Admits

section Account

variable {limit : Nat}

theorem obey_of_not_looks {c : Command} (h : ¬c.Looks) : (e.obey c).2 = e := by
  cases c with
  | query table asked =>
    have hlimit : asked.limit = some 0 := not_not.mp h
    simp only [obey, query, checked, hlimit, if_true]
    split <;> rfl
  | get | put | update | remove | length | stats => exact absurd trivial h

theorem Seats.slots_eq (h : e.Seats table e') :
    e'.slots = if table ∉ e.slots ∧ e'.Exists table then e.slots ++ [table] else e.slots := by
  rw [h.slots]
  by_cases hseat : table ∈ e.slots
  · simp [seated_of_mem hseat, hseat]
  · simp [seated, hseat]

-- A slot is taken for a table that had none by what succeeds and leaves it there.
theorem slots_obey {c : Command} (hlooks : c.Looks) :
    (e.obey c).2.slots =
      if (e.obey c).1.isOk ∧ c.table ∉ e.slots ∧ (e.obey c).2.Exists c.table
      then e.slots ++ [c.table] else e.slots := by
  cases hobey : e.obey c with
  | mk result e' =>
    cases result with
    | ok result => simp [(obey_seats hlooks hobey).slots_eq, Except.isOk, Except.toBool]
    | error error => simp [(obey_fails hobey).restores.slots, Except.isOk, Except.toBool]

-- A command has used its table with success, or has left tables and slots as they were.
theorem obey_seats_or_same (e : Environment) (c : Command) :
    e.Seats c.table (e.obey c).2 ∨ (e.obey c).2.tables = e.tables ∧
      (e.obey c).2.slots = e.slots ∧ (e.obey c).2.config = e.config := by
  by_cases hlooks : c.Looks
  · cases hobey : e.obey c with
    | mk result e' =>
      cases result with
      | ok result => exact .inl (obey_seats hlooks hobey)
      | error error =>
        have hrestores := (obey_fails hobey).restores
        exact .inr ⟨hrestores.tables, hrestores.slots, hrestores.config⟩
  · rw [obey_of_not_looks hlooks]
    exact .inr ⟨rfl, rfl, rfl⟩

theorem slots_prefix_obey (e : Environment) (c : Command) : e.slots <+: (e.obey c).2.slots := by
  rcases e.obey_seats_or_same c with hseats | ⟨_, hslots, _⟩
  · rw [hseats.slots_eq]
    split
    · exact List.prefix_append _ _
    · exact List.prefix_refl _
  · rewrite [hslots]
    exact List.prefix_refl _

theorem slots_prefix_obeyAll (e : Environment) (commands : List Command) :
    e.slots <+: (e.obeyAll commands).slots := by
  induction commands generalizing e with
  | nil => exact List.prefix_refl _
  | cons c rest ih => exact (e.slots_prefix_obey c).trans (ih (e.obey c).2)

-- The tables that have slots exist and are all different, and there are no more of them
-- than the limit.
structure Slotted (e : Environment) (limit : Nat) : Prop where
  exist : ∀ table ∈ e.slots, e.Exists table
  nodup : e.slots.Nodup
  bounded : e.slots.length ≤ limit
  allowed : e.config.maxTables.toNat = limit

theorem slotted_start (config : Config) (fileSize : UInt64) (tables : Tables)
    (capacity : Capacity) :
    (start config fileSize tables capacity).Slotted config.maxTables.toNat where
  exist := fun _ h => absurd h List.not_mem_nil
  nodup := List.nodup_nil
  bounded := Nat.zero_le _
  allowed := rfl

theorem Seats.slotted (h : e.Seats table e') (hslotted : e.Slotted limit) : e'.Slotted limit where
  exist := by
    intro other hother
    rw [h.slots_eq] at hother
    split at hother
    · rename_i hnew
      rcases List.mem_append.mp hother with hother | hother
      · exact h.exist other (hslotted.exist other hother)
      · rw [List.mem_singleton.mp hother]
        exact hnew.2
    · exact h.exist other (hslotted.exist other hother)
  nodup := by
    rw [h.slots_eq]
    split
    · rename_i hnew
      rw [← List.concat_eq_append]
      exact List.Nodup.concat hnew.1 hslotted.nodup
    · exact hslotted.nodup
  bounded := by
    have hbounded := hslotted.bounded
    have hallowed := hslotted.allowed
    rw [h.slots_eq]
    split
    · rename_i hnew
      have hfree := h.room.resolve_left hnew.1
      rw [List.length_append, List.length_singleton]
      omega
    · exact hbounded
  allowed := by
    rw [h.config]
    exact hslotted.allowed

theorem Slotted.obey (h : e.Slotted limit) (c : Command) : (e.obey c).2.Slotted limit := by
  rcases e.obey_seats_or_same c with hseats | ⟨htables, hslots, hconfig⟩
  · exact hseats.slotted h
  · refine ⟨fun table hmem => ?_, hslots ▸ h.nodup, hslots ▸ h.bounded, hconfig ▸ h.allowed⟩
    rw [hslots] at hmem
    rw [Exists, htables]
    exact h.exist table hmem

-- By induction over the commands, each of which keeps to the limit.
theorem Slotted.obeyAll (h : e.Slotted limit) (commands : List Command) :
    (e.obeyAll commands).Slotted limit := by
  induction commands generalizing e with
  | nil => exact h
  | cons c rest ih => exact ih (h.obey c)

theorem Slotted.hasRoom_iff (h : e.Slotted limit) :
    e.HasRoom table ↔ ¬(table ∉ e.slots ∧ e.slots.length = limit) := by
  have hbounded := h.bounded
  rw [HasRoom, h.allowed, not_and_or, not_not]
  exact or_congr_right (by omega)

theorem obey_eq_tablesFull_iff {c : Command} (hlooks : c.Looks)
    (hvalid : checkTable c.table = .ok ()) (operation : String) :
    (e.obey c).1 = .error (.engine operation .tablesFull) ↔
      operation = c.opening ∧ ¬e.HasRoom c.table := by
  by_cases hroom : e.HasRoom c.table
  · exact iff_of_false (admits_obey hroom operation) fun h => h.2 hroom
  · rw [obey_of_crowded hlooks hvalid hroom]
    simp [hroom, eq_comm]

-- The account of the slots of a store, besides which tables have them: none loses its slot, a
-- table is refused just if it has none and none is left, and it takes one just if what was
-- asked of it succeeds and it is there afterwards.
structure Accounts (e : Environment) (limit : Nat) : Prop extends e.Slotted limit where
  kept : ∀ later : List Command, e.slots <+: (e.obeyAll later).slots
  refused : ∀ c : Command, c.Looks → checkTable c.table = .ok () → ∀ operation : String,
    (e.obey c).1 = .error (.engine operation .tablesFull) ↔
      operation = c.opening ∧ c.table ∉ e.slots ∧ e.slots.length = limit
  taken : ∀ c : Command, c.Looks → (e.obey c).2.slots =
    if (e.obey c).1.isOk ∧ c.table ∉ e.slots ∧ (e.obey c).2.Exists c.table
    then e.slots ++ [c.table] else e.slots

theorem Slotted.accounts (h : e.Slotted limit) : e.Accounts limit where
  toSlotted := h
  kept := e.slots_prefix_obeyAll
  refused := by
    intro c hlooks hvalid operation
    rw [obey_eq_tablesFull_iff hlooks hvalid, h.hasRoom_iff, not_not]
  taken := fun _ hlooks => slots_obey hlooks

-- Whatever tables an earlier opening has left, and whatever has been asked since.
theorem slots_accounted (config : Config) (fileSize : UInt64) (tables : Tables)
    (capacity : Capacity) (commands : List Command) :
    ((start config fileSize tables capacity).obeyAll commands).Accounts config.maxTables.toNat :=
  ((slotted_start config fileSize tables capacity).obeyAll commands).accounts

end Account

end Environment

end LightningRecords

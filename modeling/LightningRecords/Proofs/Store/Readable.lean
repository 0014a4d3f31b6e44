import LightningRecords.Proofs.Record.Depth
import LightningRecords.Proofs.Store.Failure
import LightningRecords.Proofs.Store.Room

namespace LightningRecords

-- What a command has stored and under which key, if this is what came of it.
def Command.stored? : (c : Command) → Except StoreError c.Result → Option (String × Key × Record)
  | .put table key record _, .ok () => some (table, key, record)
  | .update table key _ _, .ok record => some (table, key, record)
  | _, _ => none

namespace OrderedMap

variable {κ α : Type} {cmp : κ → κ → Ordering} {m : OrderedMap cmp α} {k : κ} {e : κ × α}

theorem mem_of_mem_insert [Std.TransCmp cmp] [Std.LawfulEqCmp cmp] {v : α}
    (h : e ∈ (m.insert k v).toList) : e = (k, v) ∨ e ∈ m.toList :=
  mem_place h

theorem mem_of_mem_erase (h : e ∈ (m.erase k).toList) : e ∈ m.toList :=
  List.mem_of_mem_filter h

end OrderedMap

namespace Environment

def obeyAll (e : Environment) (commands : List Command) : Environment :=
  commands.foldl (fun e c => (e.obey c).2) e

-- All that several commands have stored, in their order.
def stores (e : Environment) : List Command → List (String × Key × Record)
  | [] => []
  | c :: rest => (c.stored? (e.obey c).1).toList ++ (e.obey c).2.stores rest

variable {e e' : Environment} {table : String} {key : Key} {record : Record}
  {stored : List (String × Key × Record)}

section Results

-- What a command that succeeds has done to the rows, if it has stored this.
inductive Turns (e : Environment) (table : String) (e' : Environment) :
    Option (String × Key × Record) → Prop where
  | keeps (h : e.Keeps e') : Turns e table e' none
  | erases (key : Key)
      (h : e'.tables = e.tables.insert table ((e.contents table).erase key.bytes)) :
      Turns e table e' none
  | writes {key : Key} {record : Record} (h : e.Writes table key record e') :
      Turns e table e' (some (table, key, record))

theorem remove_turns {removed : Bool} (h : e.remove table key = (.ok removed, e')) :
    e.Turns table e' none := by
  obtain ⟨⟨rows, opened⟩, hopened, hdone⟩ := bind_eq_ok_iff.mp (write_eq_ok (checked_eq_ok h))
  obtain ⟨hkeeps, _, hrows, _⟩ := openTable_eq_ok hopened
  cases rows with
  | none =>
    cases hdone
    exact .keeps hkeeps
  | some rows =>
    cases hdone
    refine .erases key ?_
    rw [setRows, hkeeps.tables, contents_of_some hrows.symm]

theorem query_keeps {query : Query} {rows : List Row} (h : e.query table query = (.ok rows, e')) :
    e.Keeps e' := by
  have h := checked_eq_ok h
  split at h
  · cases h
    exact .refl e
  · obtain ⟨⟨rows, opened⟩, hopened, hdone⟩ := bind_eq_ok_iff.mp (read_eq_ok h)
    have hkeeps := (openTable_eq_ok hopened).1
    cases rows with
    | none =>
      cases hdone
      exact hkeeps
    | some rows =>
      simp only at hdone
      split at hdone
      · cases hdone
      · obtain ⟨_, _, hdone⟩ := bind_eq_ok_iff.mp hdone
        cases hdone
        exact hkeeps

theorem length_keeps {entries : Nat} (h : e.length table = (.ok entries, e')) : e.Keeps e' := by
  obtain ⟨⟨rows, opened⟩, hopened, hdone⟩ := bind_eq_ok_iff.mp (read_eq_ok (checked_eq_ok h))
  have hkeeps := (openTable_eq_ok hopened).1
  cases rows <;> cases hdone <;> exact hkeeps

theorem stats_keeps {stats : Stats} (h : e.stats table = (.ok stats, e')) : e.Keeps e' := by
  cases hlength : e.length table with
  | mk entries after =>
    simp only [Environment.stats, hlength] at h
    cases entries with
    | error error => cases h
    | ok entries =>
      cases h
      exact length_keeps hlength

theorem obey_turns {c : Command} {result : c.Result} (h : e.obey c = (.ok result, e')) :
    e.Turns c.table e' (c.stored? (.ok result)) := by
  cases c with
  | get table key => exact .keeps (get_keeps h)
  | put table key record fresh => exact .writes (put_eq_ok h).1
  | update table key changes expected => exact .writes (update_eq_ok h).1
  | remove table key => exact remove_turns h
  | query table query => exact .keeps (query_keeps h)
  | length table => exact .keeps (length_keeps h)
  | stats table => exact .keeps (stats_keeps h)

end Results

-- Every row is a record that was stored under its key, as it was written down.
def HoldsOnly (e : Environment) (stored : List (String × Key × Record)) : Prop :=
  ∀ table, ∀ row ∈ (e.contents table).toList, ∃ key record,
    row = (key.bytes, record.encode) ∧ record.encode.length < 2 ^ 64 ∧
      (table, key, record) ∈ stored

namespace HoldsOnly

theorem start (config : Config) (fileSize : UInt64) (capacity : Capacity) :
    (Environment.start config fileSize ∅ capacity).HoldsOnly [] := by
  intro table row hrow
  cases hrow

theorem of_tables (h : e.HoldsOnly stored) (htables : e'.tables = e.tables) :
    e'.HoldsOnly stored := by
  intro table row hrow
  rw [contents, htables] at hrow
  exact h table row hrow

theorem append (h : e.HoldsOnly stored) (later : List (String × Key × Record)) :
    e.HoldsOnly (stored ++ later) := by
  intro table row hrow
  obtain ⟨key, record, hrow, hfits, hmem⟩ := h table row hrow
  exact ⟨key, record, hrow, hfits, List.mem_append_left later hmem⟩

theorem turns (h : e.HoldsOnly stored) {new : Option (String × Key × Record)}
    (hturns : e.Turns table e' new) : e'.HoldsOnly (stored ++ new.toList) := by
  cases hturns with
  | keeps hkeeps => exact (h.of_tables hkeeps.tables).append _
  | erases key htables =>
    apply append
    intro other row hrow
    by_cases heq : other = table
    · subst heq
      simp only [contents, htables, OrderedMap.get?_insert_self] at hrow
      exact h other row (OrderedMap.mem_of_mem_erase hrow)
    · simp only [contents, htables, OrderedMap.get?_insert_of_ne _ _ heq] at hrow
      exact h other row hrow
  | @writes key record hwrites =>
    intro other row hrow
    by_cases heq : other = table
    · subst heq
      simp only [contents, hwrites.tables, OrderedMap.get?_insert_self] at hrow
      rcases OrderedMap.mem_of_mem_insert hrow with rfl | hrow
      · exact ⟨key, record, rfl, Nat.lt_of_le_of_lt hwrites.fits e.mapSize.toNat_lt, by simp⟩
      · exact h.append _ other row hrow
    · simp only [contents, hwrites.tables, OrderedMap.get?_insert_of_ne _ _ heq] at hrow
      exact h.append _ other row hrow

theorem obey (h : e.HoldsOnly stored) (c : Command) :
    (e.obey c).2.HoldsOnly (stored ++ (c.stored? (e.obey c).1).toList) := by
  cases hresult : e.obey c with
  | mk result e' =>
    cases result with
    | ok result => exact h.turns (obey_turns hresult)
    | error error => exact (h.of_tables (obey_fails hresult).restores.tables).append _

-- By induction over the commands: what is stored by then is all that can be held.
theorem obeyAll (h : e.HoldsOnly stored) (commands : List Command) :
    (e.obeyAll commands).HoldsOnly (stored ++ e.stores commands) := by
  induction commands generalizing e stored with
  | nil =>
    rw [stores, List.append_nil]
    exact h
  | cons c rest ih =>
    rw [stores, ← List.append_assoc]
    exact ih (h.obey c)

end HoldsOnly

-- What cannot be read back was written with a list that is nested too deep.
theorem HoldsOnly.exists_deep (h : e.HoldsOnly stored) {row : Bytes × Bytes}
    (hrow : row ∈ (e.contents table).toList) {error : DecodeError}
    (hdecode : Record.decode row.2 = .error error) :
    ∃ key record, (table, key, record) ∈ stored ∧
      ∃ name value, record.get? name = some value ∧ 126 < value.depth := by
  obtain ⟨key, record, rfl, hfits, hmem⟩ := h table row hrow
  refine ⟨key, record, hmem, ?_⟩
  by_contra hshallow
  have hstorable : record.Storable := by
    intro name value hget
    by_contra hdeep
    exact hshallow ⟨name, value, hget, Nat.lt_of_not_le hdeep⟩
  rw [Record.decode_encode_of_storable hfits hstorable] at hdecode
  cases hdecode

-- Of a table that has a slot, the record under a key is told as it is held.
theorem get_of_seat (hvalid : checkTable table = .ok ()) (hseat : table ∈ e.slots) :
    (e.get table key).1 = e.held table key := by
  cases hheld : e.held table key with
  | ok stored => rw [get_of_mem hvalid hseat hheld]
  | error error =>
    have hroom : e.HasRoom table := .inl hseat
    have hopened := openTable_of_room hroom
    have hfound : findRow table (e.contents table) key = .error error := hheld
    rw [get, checked_of_valid _ hvalid]
    cases hrows : e.tables.get? table with
    | some rows =>
      rw [contents_of_some hrows] at hfound
      simp only [read, hopened, hrows, bind, Except.bind, hfound]
    | none =>
      rw [contents_of_none hrows] at hfound
      cases hfound

theorem Writes.get_eq_ok_iff (h : e.Writes table key record e')
    (hvalid : checkTable table = .ok ()) :
    (e'.get table key).1 = .ok (some record) ↔
      ∀ name value, record.get? name = some value → value.depth ≤ 126 := by
  rw [get_of_seat hvalid h.seat]
  exact ⟨storable_of_held, h.held_self⟩

theorem writes_of_stored? {c : Command} {table : String}
    (h : c.stored? (e.obey c).1 = some (table, key, record)) :
    e.Writes table key record (e.obey c).2 ∧ checkTable table = .ok () := by
  cases hresult : e.obey c with
  | mk result e' =>
    rw [hresult] at h
    cases c with
    | put other otherKey fresh names =>
      cases result with
      | error error => cases h
      | ok =>
        cases h
        exact ⟨(put_eq_ok hresult).1, checkTable_of_checked hresult⟩
    | update other otherKey changes expected =>
      cases result with
      | error error => cases h
      | ok after =>
        cases h
        exact ⟨(update_eq_ok hresult).1, checkTable_of_checked hresult⟩
    | get | remove | query | length | stats => cases h

-- A store that began empty fails to read its rows only where a record was stored
-- with a list that is nested too deep, and what was stored last is read back as it
-- is just if it has no such list.
theorem read_back (config : Config) (fileSize : UInt64) (capacity : Capacity)
    (commands : List Command) :
    let start := Environment.start config fileSize ∅ capacity
    let e := start.obeyAll commands
    (∀ (c : Command) table damage, (e.obey c).1 = .error (.corrupted table damage) →
      ∃ key record, (table, key, record) ∈ start.stores commands ∧
        ∃ name value, record.get? name = some value ∧ 126 < value.depth) ∧
    ∀ (c : Command) table key record, c.stored? (e.obey c).1 = some (table, key, record) →
      (((e.obey c).2.get table key).1 = .ok (some record) ↔
        ∀ name value, record.get? name = some value → value.depth ≤ 126) := by
  intro start e
  have hholds : e.HoldsOnly (start.stores commands) := by
    have h := (HoldsOnly.start config fileSize capacity).obeyAll commands
    rwa [List.nil_append] at h
  constructor
  · intro c table damage hcorrupted
    rcases obey_fails (Prod.ext hcorrupted rfl) with ⟨hfault, _⟩ | ⟨_, hcapacity, _⟩
    · cases hfault with
      | corrupted hrow hdecode => exact hholds.exists_deep hrow hdecode
    · cases hcapacity
  · intro c table key record hstored
    obtain ⟨hwrites, hvalid⟩ := writes_of_stored? hstored
    exact hwrites.get_eq_ok_iff hvalid

-- A record is stored and cannot be read again, nor another be put in its place.
theorem not_read_back :
    let key : Key := ⟨List.replicate 32 0, rfl⟩
    let deep : Record := OrderedMap.insert ∅ "lists" (Value.nested 126)
    let start := Environment.start Config.minimal 0 ∅
    let e := start.obeyAll [.put "nodes" key deep none]
    let error : StoreError :=
      .corrupted "nodes" (.undecodable (.malformed ⟨.tooDeep, 134⟩))
    (start.obey (.put "nodes" key deep none)).1 = .ok () ∧
      (e.obey (.get "nodes" key)).1 = .error error ∧
      (e.obey (.query "nodes" {})).1 = .error error ∧
      (e.obey (.put "nodes" key ∅ none)).1 = .error error := by
  decide +kernel

end Environment

end LightningRecords

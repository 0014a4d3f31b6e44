import LightningRecords.Proofs.Store.Failure
import LightningRecords.Proofs.Store.Plain
import LightningRecords.Proofs.Store.Room

namespace LightningRecords.Environment

variable {e : Environment} {isFull : Bool} {operation table : String}

-- A run in a store that is told what the engine reports, given as one in a store where the
-- engine has a rule.
def tell {α : Type} (isFull : Bool) (run : α × Environment) : α × Environment :=
  (run.1, run.2.told isFull)

section Transactions

theorem takeSlot_told : (e.told isFull).takeSlot operation table =
    (e.takeSlot operation table).map (·.told isFull) := by
  unfold takeSlot
  by_cases hseat : e.slots.contains table = true
  · rw [if_pos hseat]
    exact if_pos hseat
  rw [if_neg hseat]
  refine (if_neg hseat).trans ?_
  by_cases hlimit : e.config.maxTables.toNat ≤ e.slots.length
  · rw [if_pos hlimit]
    exact if_pos hlimit
  · rw [if_neg hlimit]
    exact if_neg hlimit

theorem openTable_told : (e.told isFull).openTable table =
    (e.openTable table).map (tell isFull) := by
  simp only [openTable, takeSlot_told]
  cases e.takeSlot "open table" table with
  | error error => rfl
  | ok opened =>
    have hsame : (e.told isFull).tables.get? table = e.tables.get? table := rfl
    simp only [Except.map, bind, Except.bind, hsame]
    cases e.tables.get? table <;> rfl

theorem createTable_told : (e.told isFull).createTable table =
    (e.createTable table).map (tell isFull) := by
  simp only [createTable, takeSlot_told]
  cases e.takeSlot "create table" table with
  | error error => rfl
  | ok opened =>
    have hsame : (e.told isFull).tables.get? table = e.tables.get? table := rfl
    simp only [Except.map, bind, Except.bind, hsame]
    cases e.tables.get? table <;> rfl

-- Whatever the rule is, it says one or the other about a row.
theorem exists_storeRow_told (e : Environment) (operation table : String) (rows : Table)
    (key bytes : Bytes) : ∃ isFull, (e.told isFull).storeRow operation table rows key bytes =
      (e.storeRow operation table rows key bytes).map (·.told isFull) := by
  refine ⟨e.isFull bytes.length (e.tables.insert table (rows.insert key bytes)), ?_⟩
  cases hfull : e.isFull bytes.length (e.tables.insert table (rows.insert key bytes)) with
  | true =>
    have htold : (e.told true).isFull bytes.length (e.tables.insert table (rows.insert key bytes)) =
        true := Bool.or_eq_true_iff.mpr (.inr rfl)
    simp only [storeRow, hfull, if_true]
    exact if_pos htold
  | false =>
    have htold : (e.told false).isFull bytes.length
        (e.tables.insert table (rows.insert key bytes)) = false := by
      rw [isFull_eq_false_iff] at hfull ⊢
      exact ⟨hfull.1, rfl⟩
    simp only [storeRow, hfull]
    exact if_neg (Bool.eq_false_iff.mp htold)

theorem exists_stored_told {α : Type} (e : Environment) (operation table : String) (rows : Table)
    (key bytes : Bytes) (a : α) : ∃ isFull,
      ((e.told isFull).storeRow operation table rows key bytes >>= fun stored => .ok (a, stored)) =
        (e.storeRow operation table rows key bytes >>= fun stored => .ok (a, stored)).map
          (tell isFull) := by
  obtain ⟨isFull, hstored⟩ := e.exists_storeRow_told operation table rows key bytes
  refine ⟨isFull, ?_⟩
  rw [hstored]
  cases e.storeRow operation table rows key bytes <;> rfl

theorem grow_told (e : Environment) (isFull : Bool) :
    (e.told isFull).grow e.mapSize = (e.grow e.mapSize).told isFull := by
  have hgrown := (e.told isFull).grow_eq
  rw [e.grow_eq]
  exact hgrown

variable {α : Type} {body : Environment → Except StoreError (α × Environment)}

theorem read_told (h : body (e.told isFull) = (body e).map (tell isFull)) :
    (e.told isFull).read operation {} body = tell isFull (e.read operation {} body) := by
  simp only [read, h]
  cases body e <;> rfl

theorem afterMapLimit_told : (e.told isFull).afterMapLimit operation {} =
    tell isFull (e.afterMapLimit operation {} : Except StoreError α × Environment) := by
  have hafter : (e.told isFull).afterMapLimit (α := α) operation {} =
      (.error (.capacityExhausted operation ((e.told isFull).grow e.mapSize).mapSize),
        (e.told isFull).grow e.mapSize) := rfl
  rw [hafter, grow_told]
  rfl

theorem write_told (h : body (e.told isFull) = (body e).map (tell isFull)) :
    (e.told isFull).write operation {} body = tell isFull (e.write operation {} body) := by
  simp only [write, h]
  cases body e with
  | error error =>
    simp only [Except.map, afterMapLimit_told]
    split <;> rfl
  | ok done => rfl

theorem checked_told {run run' : Except StoreError α × Environment} (h : run' = tell isFull run) :
    (e.told isFull).checked table run' = tell isFull (e.checked table run) := by
  simp only [checked, h]
  cases checkTable table <;> rfl

end Transactions

section Operations

variable {key : Key} {record : Record}

theorem get_told : (e.told isFull).get table key = tell isFull (e.get table key) := by
  refine checked_told (read_told ?_)
  rw [openTable_told]
  cases e.openTable table with
  | error error => rfl
  | ok opened =>
    obtain ⟨_ | rows, opened⟩ := opened
    · rfl
    · simp only [Except.map, tell, bind, Except.bind]
      cases findRow table rows key <;> rfl

theorem remove_told : (e.told isFull).remove table key = tell isFull (e.remove table key) := by
  refine checked_told (write_told ?_)
  rw [openTable_told]
  cases e.openTable table with
  | error error => rfl
  | ok opened => obtain ⟨_ | rows, opened⟩ := opened <;> rfl

theorem length_told : (e.told isFull).length table = tell isFull (e.length table) := by
  refine checked_told (read_told ?_)
  rw [openTable_told]
  cases e.openTable table with
  | error error => rfl
  | ok opened => obtain ⟨_ | rows, opened⟩ := opened <;> rfl

theorem exists_put_told (e : Environment) (table : String) (key : Key) (record : Record)
    (fresh : Option (List String)) : ∃ isFull, (e.told isFull).put table key record fresh =
      tell isFull (e.put table key record fresh) := by
  suffices h : ∃ isFull, _ = _ from h.imp fun isFull h => checked_told (write_told h)
  simp only [createTable_told]
  cases e.createTable table with
  | error error => exact ⟨false, rfl⟩
  | ok created =>
    obtain ⟨rows, created⟩ := created
    simp only [Except.map, tell, bind, Except.bind]
    cases findRow table rows key with
    | error error => exact ⟨false, rfl⟩
    | ok found =>
      cases found with
      | none => exact created.exists_stored_told "put" table rows key.bytes record.encode ()
      | some stored =>
        simp only
        cases checkFresh table (fresh.getD []) stored with
        | error error => exact ⟨false, rfl⟩
        | ok =>
          exact (created.setRows table (rows.erase key.bytes)).exists_stored_told "put" table
            (rows.erase key.bytes) key.bytes record.encode ()

theorem exists_update_told (e : Environment) (table : String) (key : Key) (changes : Changes)
    (expected : Option Record) : ∃ isFull, (e.told isFull).update table key changes expected =
      tell isFull (e.update table key changes expected) := by
  suffices h : ∃ isFull, _ = _ from h.imp fun isFull h => checked_told (write_told h)
  simp only [openTable_told]
  cases e.openTable table with
  | error error => exact ⟨false, rfl⟩
  | ok opened =>
    obtain ⟨_ | rows, opened⟩ := opened
    · exact ⟨false, rfl⟩
    simp only [Except.map, tell, bind, Except.bind]
    cases findRow table rows key with
    | error error => exact ⟨false, rfl⟩
    | ok found =>
      cases found with
      | none => exact ⟨false, rfl⟩
      | some stored =>
        simp only
        cases checkExpected table expected stored with
        | error error => exact ⟨false, rfl⟩
        | ok =>
          cases applyChanges changes stored with
          | error error => exact ⟨false, rfl⟩
          | ok record =>
            exact opened.exists_stored_told "update" table rows key.bytes record.encode record

theorem exists_perform_told (o : Operation) (e : Environment) : ∃ isFull,
    (e.told isFull).perform o = ((e.perform o).1, (e.perform o).2.told isFull) := by
  cases o with
  | get table key => exact ⟨false, congrArg (Prod.map Reply.found id) get_told⟩
  | put table key record fresh =>
    obtain ⟨isFull, hput⟩ := e.exists_put_told table key record fresh
    exact ⟨isFull, congrArg (Prod.map Reply.stored id) hput⟩
  | update table key changes expected =>
    obtain ⟨isFull, hupdate⟩ := e.exists_update_told table key changes expected
    exact ⟨isFull, congrArg (Prod.map Reply.changed id) hupdate⟩
  | remove table key => exact ⟨false, congrArg (Prod.map Reply.removed id) remove_told⟩
  | length table => exact ⟨false, congrArg (Prod.map Reply.counted id) length_told⟩

end Operations

-- What the engine reports next is up to the operation that is to be performed.
theorem replies_told (steps : List (Operation × Bool)) (e : Environment) (isFull : Bool) :
    replies performTold steps (e.told isFull) = replies performTold steps e := by
  cases steps <;> rfl

-- A store that has a rule for when the map is full replies as one that is told so time and
-- again. By induction over the operations, which need no rule but the reports.
theorem exists_reports (os : List Operation) (e : Environment) : ∃ reports : List Bool,
    reports.length = os.length ∧
      replies performTold (os.zip reports) e = replies perform os e := by
  induction os generalizing e with
  | nil => exact ⟨[], rfl, rfl⟩
  | cons o rest ih =>
    obtain ⟨isFull, hperform⟩ := exists_perform_told o e
    obtain ⟨reports, hlength, hrest⟩ := ih (e.perform o).2
    refine ⟨isFull :: reports, by rw [List.length_cons, List.length_cons, hlength], ?_⟩
    have hfirst : performTold (o, isFull) e = _ := hperform
    rw [List.zip_cons_cons, replies, replies, hfirst, replies_told, hrest]

end LightningRecords.Environment

import LightningRecords.Proofs.Clients.Behaved
import LightningRecords.Proofs.Procedure.Runs
import LightningRecords.Proofs.Store.Readable

namespace LightningRecords

-- What holds of every record of a kind.
structure Schema.Upholds (schema : Schema) (record : Record) : Prop where
  revision : ∃ revision, record.get? Record.revisionAttribute = some (.int revision) ∧
    0 ≤ revision.toInt
  unique : record.contains schema.unique = true
  connected : schema = .peer → ∃ flag, record.get? "is_connected" = some (.bool flag)
  funded : schema = .channel → record.Funded

section Versions

variable {s : System} {schema : Schema} {stored : Option Record} {record : Record} {c : Call}

theorem Call.Makes.connected (h : c.Makes stored record) (hschema : c.schema = .peer) :
    ∃ flag, record.get? "is_connected" = some (.bool flag) := by
  cases c with
  | peer publicKey => exact h
  | _ =>
    simp only [Call.schema] at hschema
    exact absurd hschema (by decide)

theorem Call.Makes.funded (h : c.Makes stored record) (hschema : c.schema = .channel)
    (hstored : ∀ original ∈ stored, original.Funded) : record.Funded := by
  rcases Call.eq_of_channel hschema with ⟨id, rfl⟩ | ⟨id, height, rfl⟩
  · cases stored with
    | none => exact h.1
    | some original => exact ChannelReport.funded_of_contains (h.2.2 (hstored original rfl))
  · cases stored with
    | none => exact h.elim
    | some original =>
      obtain ⟨_, _, hothers⟩ := h
      have hcapacity : record.get? "capacity" = original.get? "capacity" :=
        hothers.get?_funding (by decide)
      intro name hname
      rw [OrderedMap.contains, OrderedMap.contains, hothers.get?_funding hname, hcapacity]
      exact hstored original rfl name hname

theorem System.Consistent.upholds (h : s.Consistent) (hb : s.Behaved)
    (hschema : schema ∈ Schema.all) {key : Key}
    (hrecord : record ∈ versions s.writes schema.table key) : schema.Upholds record where
  revision := by
    obtain ⟨n, hn⟩ := List.mem_iff_getElem?.mp hrecord
    obtain ⟨revision, hget, hcount⟩ := (h.chronicle.history.lineage hschema key).revision hn
    exact ⟨revision, hget, by omega⟩
  unique := (h.chronicle.history.lineage hschema key).unique hschema record hrecord
  connected := by
    rintro rfl
    exact h.forall_versions hb hschema key
      (fun _ _ _ _ _ hkind hmade _ => hmade.makes.connected hkind) record hrecord
  funded := by
    rintro rfl
    exact h.forall_versions hb hschema key
      (fun _ _ _ _ _ hkind hmade hstored => hmade.makes.funded hkind hstored) record hrecord

end Versions

section Rows

variable {s : System} {e e' : Environment} {table : String} {stored : List (String × Key × Record)}

theorem Environment.Writes.keys_subset {key : Key} {record : Record}
    (h : e.Writes table key record e') (other : String) :
    (e.contents other).keys ⊆ (e'.contents other).keys := by
  intro bytes hbytes
  by_cases heq : other = table
  · subst heq
    rw [contents, h.tables, OrderedMap.get?_insert_self, Option.getD_some,
      OrderedMap.mem_keys_iff, OrderedMap.contains_insert]
    exact .inr ((OrderedMap.mem_keys_iff _ _).mp hbytes)
  · rw [contents, h.tables, OrderedMap.get?_insert_of_ne _ _ heq]
    exact hbytes

-- A move writes one record at most, and nothing is ever removed.
theorem System.step_environment (s : System) (move : Move) :
    s.environment.Keeps (s.step move).environment ∨
      ∃ table key record, s.environment.Writes table key record (s.step move).environment := by
  cases move with
  | begin call => exact .inl (.refl _)
  | advance i answers =>
    simp only [step]
    split
    · exact .inl (.refl _)
    · split
      · exact .inl (.refl _)
      · rename_i v _ r next _
        cases hcommits : r.commits (s.environment.serve answers r).1 with
        | false => exact .inl (Environment.serve_keeps hcommits)
        | true => exact .inr (Environment.serve_stores hcommits).writes

theorem System.keys_subset_step (s : System) (move : Move) (table : String) :
    (s.environment.contents table).keys ⊆ ((s.step move).environment.contents table).keys := by
  rcases s.step_environment move with hkeeps | ⟨_, _, _, hwrites⟩
  · rw [hkeeps.contents]
    exact List.Subset.refl _
  · exact hwrites.keys_subset table

theorem System.keys_subset_run (s : System) (later : List Move) (table : String) :
    (s.environment.contents table).keys ⊆
      ((later.foldl step s).environment.contents table).keys := by
  induction later generalizing s with
  | nil => exact List.Subset.refl _
  | cons move rest ih => exact List.Subset.trans (s.keys_subset_step move table) (ih _)

theorem System.holdsOnly_step (h : s.environment.HoldsOnly stored) (move : Move) :
    ∃ later, (s.step move).environment.HoldsOnly later := by
  rcases s.step_environment move with hkeeps | ⟨table, key, record, hwrites⟩
  · exact ⟨_, h.turns (.keeps hkeeps : Environment.Turns _ "" _ _)⟩
  · exact ⟨_, h.turns (.writes hwrites)⟩

theorem System.holdsOnly_run (config : Config) (fileSize : UInt64) (capacity : Capacity)
    (moves : List Move) :
    ∃ stored, (run config fileSize capacity moves).environment.HoldsOnly stored := by
  rw [run]
  suffices hall : ∀ s : System, (∃ stored, s.environment.HoldsOnly stored) →
      ∃ stored, (moves.foldl step s).environment.HoldsOnly stored from
    hall _ ⟨[], .start config fileSize capacity⟩
  induction moves with
  | nil => exact fun s h => h
  | cons move rest ih =>
    intro s hs
    obtain ⟨stored, h⟩ := hs
    exact ih _ (holdsOnly_step h move)

-- Every row is a record, and the last version of it.
theorem System.Consistent.decode_row (h : s.Consistent) (hholds : s.environment.HoldsOnly stored)
    {row : Bytes × Bytes} (hrow : row ∈ (s.environment.contents table).toList) :
    ∃ key record, row.1 = key.bytes ∧ Record.decode row.2 = .ok record ∧
      (versions s.writes table key).getLast? = some record := by
  obtain ⟨key, written, hplace, _⟩ := hholds table row hrow
  have hget := OrderedMap.get?_of_mem hrow
  have hheld := h.chronicle.held table key
  have hkey : row.1 = key.bytes := congrArg Prod.fst hplace
  rw [hkey] at hget
  simp only [Environment.held, Environment.findRow, hget, Environment.decodeRow] at hheld
  cases hdecode : Record.decode row.2 with
  | error error =>
    rw [hdecode] at hheld
    cases hheld
  | ok record =>
    rw [hdecode] at hheld
    exact ⟨key, record, hkey, rfl, (Except.ok.inj hheld).symm⟩

end Rows

-- What holds of all that is stored, and of every call that has come back, as long as
-- nothing else writes.
structure System.Mirrors (s : System) : Prop where
  rows : ∀ schema ∈ Schema.all, ∀ row ∈ (s.environment.contents schema.table).toList,
    ∃ record, Record.decode row.2 = .ok record ∧ schema.Upholds record
  readable : ∀ v ∈ s.visits, ∀ table damage,
    v.rest ≠ .done (.error (.store (.corrupted table damage)))
  found : ∀ v ∈ s.visits, ∀ table, v.rest ≠ .done (.error (.store (.notFound table)))
  expected : ∀ v ∈ s.visits, ∀ table name stored,
    v.rest = .done (.error (.store (.conflict table (.expectMismatch name) stored))) →
      name = Record.revisionAttribute

theorem Visit.Behaved.isBenign {v : Visit} (h : v.Behaved) {error : SyncError}
    (hrest : v.rest = .done (.error error)) : error.isBenign = true := by
  have hr := h.rest
  rw [hrest] at hr
  cases hr with
  | done hbenign => exact hbenign error rfl

theorem mirror_invariant (config : Config) (fileSize : UInt64) (capacity : Capacity)
    (moves later : List Move) : (System.run config fileSize capacity moves).Mirrors ∧
      ∀ table, ((System.run config fileSize capacity moves).environment.contents table).keys ⊆
        ((System.run config fileSize capacity
          (moves ++ later)).environment.contents table).keys := by
  have h := System.Consistent.run config fileSize capacity moves
  have hb := System.Consistent.behaved_run config fileSize capacity moves
  obtain ⟨stored, hholds⟩ := System.holdsOnly_run config fileSize capacity moves
  refine ⟨⟨?_, ?_, ?_, ?_⟩, fun table => ?_⟩
  · intro schema hschema row hrow
    obtain ⟨key, record, _, hdecode, hlast⟩ := h.decode_row hholds hrow
    exact ⟨record, hdecode, h.upholds hb hschema (List.mem_of_getLast? hlast)⟩
  · intro v hv table damage hrest
    cases (hb v hv).isBenign hrest
  · intro v hv table hrest
    cases (hb v hv).isBenign hrest
  · intro v hv table name stored hrest
    exact of_decide_eq_true ((hb v hv).isBenign hrest)
  · rw [System.run, System.run, List.foldl_append]
    exact System.keys_subset_run _ later table

end LightningRecords

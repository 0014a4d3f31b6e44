import LightningRecords.Proofs.Store.Window

namespace LightningRecords

namespace Query

variable {query : Query} {rows : Table}

-- The same query with another start of the keys, or with none.
def startingAt (query : Query) (start : Option Bytes) : Query := { query with keyStart := start }

theorem reaches_startingAt (start key : Bytes) :
    (query.startingAt (some start)).Reaches key ↔
      start <+: key ∧ (query.startingAt none).Reaches key := by
  simp [Reaches, startingAt]

-- What a query without a limit is about thins out with its start.
theorem window_startingAt (hlimit : query.limit = none) (start : Bytes) :
    (query.startingAt (some start)).window rows =
      ((query.startingAt none).window rows).filter fun row => start.isPrefixOf row.1 := by
  have hsome : (query.startingAt (some start)).limit = none := hlimit
  have hnone : (query.startingAt none).limit = none := hlimit
  simp only [window, hsome, hnone, List.filter_filter]
  congr 1
  funext row
  rw [Bool.eq_iff_iff, decide_eq_true_iff, reaches_startingAt]
  simp

theorem mem_of_mem_window {row : Bytes × Bytes} (h : row ∈ query.window rows) :
    row ∈ rows.toList := by
  unfold window at h
  split at h
  · exact List.mem_of_mem_filter (List.mem_of_mem_take h)
  · exact List.mem_of_mem_filter h

end Query

namespace Environment

variable {e : Environment} {table : String} {query : Query} {rows : Table}

-- The row of an entry whose bytes are a record.
def rowOf (row : Bytes × Bytes) : Row := ⟨row.1, (Record.decode row.2).toOption.getD ∅⟩

theorem selectRows_of_decodes
    (h : ∀ row ∈ rows.toList, ∃ record, Record.decode row.2 = .ok record) :
    selectRows table query rows =
      .ok (((query.window rows).map rowOf).filter fun row => query.accepts row.record) := by
  let records := (query.window rows).map fun row => (Record.decode row.2).toOption.getD ∅
  have hrecords : ((query.window rows).map fun row => Record.decode row.2) = records.map .ok := by
    rw [List.map_map]
    refine List.map_congr_left fun row hrow => ?_
    obtain ⟨record, hrecord⟩ := h row (Query.mem_of_mem_window hrow)
    simp [hrecord, Except.toOption]
  rw [selectRows_of_records hrecords]
  congr 2
  rw [← List.map_prod_left_eq_zip, List.map_map]
  rfl

theorem selectRows_startingAt (table : String)
    (h : ∀ row ∈ rows.toList, ∃ record, Record.decode row.2 = .ok record)
    (hlimit : query.limit = none) :
    ∃ found, selectRows table (query.startingAt none) rows = .ok found ∧
      ∀ start, selectRows table (query.startingAt (some start)) rows =
        .ok (found.filter fun row => start.isPrefixOf row.key) := by
  refine ⟨_, selectRows_of_decodes h, fun start => ?_⟩
  rw [selectRows_of_decodes h, Query.window_startingAt hlimit]
  rw [List.filter_filter, List.filter_map, List.filter_map, List.filter_filter]
  congr 3
  funext row
  exact Bool.and_comm _ _

theorem query_startingAt (hvalid : checkTable table = .ok ()) (hroom : e.HasRoom table)
    {start : Option Bytes} (hstart : start ≠ some []) :
    (e.query table (query.startingAt start)).1 =
      selectRows table (query.startingAt start) (e.contents table) :=
  query_of_room hvalid hroom hstart

-- No scan begins at an empty start: a table that exists refuses it.
theorem query_startingAt_nil (hvalid : checkTable table = .ok ()) (hroom : e.HasRoom table)
    (hlimit : query.limit ≠ some 0) :
    (e.query table (query.startingAt (some []))).1 =
      if (e.tables.get? table).isSome then .error (.engine "query" .badValueSize) else .ok [] := by
  have hopened := openTable_of_room hroom
  have hlimit' : (query.startingAt (some [])).limit ≠ some 0 := hlimit
  rw [Environment.query, checked_of_valid _ hvalid, if_neg hlimit']
  cases hrows : e.tables.get? table with
  | some rows =>
    simp only [read, hopened, hrows, bind, Except.bind]
    rfl
  | none =>
    simp only [read, hopened, hrows, bind, Except.bind]
    rfl

-- A longer start of the keys picks from what a shorter one finds, and any start from
-- what is found without one. An empty start is like none only in a table that does not
-- exist; any other refuses it.
theorem query_narrows (hvalid : checkTable table = .ok ()) (hroom : e.HasRoom table)
    (hrecords : ∀ row ∈ (e.contents table).toList, ∃ record, Record.decode row.2 = .ok record)
    (hlimit : query.limit = none) :
    let found (start : Option Bytes) := (e.query table { query with keyStart := start }).1
    (∀ p q : Bytes, p ≠ [] → p <+: q → ∃ rows, found (some p) = .ok rows ∧
      found (some q) = .ok (rows.filter fun row => q.isPrefixOf row.key)) ∧
    (∃ rows, found none = .ok rows ∧ ∀ q : Bytes, q ≠ [] →
      found (some q) = .ok (rows.filter fun row => q.isPrefixOf row.key)) ∧
    ((e.tables.get? table).isSome → found (some []) = .error (.engine "query" .badValueSize)) ∧
    ((e.tables.get? table).isNone → found (some []) = found none) := by
  intro found
  obtain ⟨rows, hall, hfrom⟩ := selectRows_startingAt table hrecords hlimit
  have hnone : found none = .ok rows :=
    (query_startingAt hvalid hroom (by simp)).trans hall
  have hsome (q : Bytes) (hq : q ≠ []) :
      found (some q) = .ok (rows.filter fun row => q.isPrefixOf row.key) :=
    (query_startingAt hvalid hroom (by simpa using hq)).trans (hfrom q)
  have hnil := query_startingAt_nil hvalid hroom (by simp [hlimit] : query.limit ≠ some 0)
  refine ⟨fun p q hp hpq => ⟨_, hsome p hp, ?_⟩, ⟨rows, hnone, hsome⟩, fun h => ?_, fun h => ?_⟩
  · rw [hsome q (fun hq => hp (List.prefix_nil.mp (hq ▸ hpq))), List.filter_filter]
    congr 2
    funext row
    rw [Bool.eq_iff_iff]
    simp only [List.isPrefixOf_iff_prefix, Bool.and_eq_true]
    exact ⟨fun h => ⟨h, hpq.trans h⟩, And.left⟩
  · exact hnil.trans (if_pos h)
  · have hmissing : e.tables.get? table = none := Option.isNone_iff_eq_none.mp h
    have hempty : selectRows table (query.startingAt none) (e.contents table) = .ok [] :=
      selectRows_of_idle (.inr (contents_of_none hmissing))
    rw [hnone, ← hall, hempty]
    exact hnil.trans (if_neg (by simp [hmissing]))

-- A start that ends in the largest byte, under an upper bound.
theorem query_narrows_bounded :
    let record : Record := OrderedMap.insert ∅ "n" (.int 1)
    let rows : Table := OrderedMap.ofList
      [([1], record.encode), ([1, 255], record.encode), ([1, 255, 0], record.encode),
        ([1, 255, 7], record.encode), ([2], record.encode)]
    let e : Environment := { start Config.minimal 0 (OrderedMap.insert ∅ "nodes" rows) with
      slots := ["nodes"] }
    let found (start : Bytes) : Except StoreError (List Row) :=
      (e.query "nodes" { keyStart := some start, upperBound := some [1, 255, 0] }).1
    found [1] = .ok [⟨[1], record⟩, ⟨[1, 255], record⟩, ⟨[1, 255, 0], record⟩] ∧
      found [1, 255] = .ok [⟨[1, 255], record⟩, ⟨[1, 255, 0], record⟩] ∧ found [9] = .ok [] := by
  intro record rows e found
  have hrecords : ∀ row ∈ (e.contents "nodes").toList,
      ∃ record, Record.decode row.2 = .ok record := by
    intro row hrow
    have hall : ∀ row ∈ (e.contents "nodes").toList, Record.decode row.2 = .ok record := by
      decide +kernel
    exact ⟨record, hall row hrow⟩
  have hvalid : checkTable "nodes" = .ok () := by decide +kernel
  have hroom : e.HasRoom "nodes" := .inl (by decide)
  have hlimit : ({ upperBound := some [1, 255, 0] } : Query).limit = none := rfl
  obtain ⟨hlonger, ⟨all, hall, hany⟩, _⟩ := query_narrows hvalid hroom hrecords hlimit
  have hwhole : (e.query "nodes" { upperBound := some [1, 255, 0] }).1 =
      .ok [⟨[1], record⟩, ⟨[1, 255], record⟩, ⟨[1, 255, 0], record⟩] := by
    decide +kernel
  cases Except.ok.inj (hall.symm.trans hwhole)
  have hone := (hany [1] (by decide)).trans (by decide +kernel : _ = .ok
    [⟨[1], record⟩, ⟨[1, 255], record⟩, ⟨[1, 255, 0], record⟩])
  obtain ⟨found, hfound, hnarrow⟩ := hlonger [1] [1, 255] (by decide) (by decide)
  cases Except.ok.inj (hfound.symm.trans hone)
  exact ⟨hone, hnarrow.trans (by decide +kernel), (hany [9] (by decide)).trans (by decide +kernel)⟩

-- The empty start begins every key, but a table with an entry refuses it while a longer
-- start finds the entry.
theorem empty_start_refused :
    let record : Record := OrderedMap.insert ∅ "n" (.int 1)
    let rows : Table := OrderedMap.ofList [([1], record.encode)]
    let e : Environment := { start Config.minimal 0 (OrderedMap.insert ∅ "nodes" rows) with
      slots := ["nodes"] }
    let found (start : Option Bytes) : Except StoreError (List Row) :=
      (e.query "nodes" { keyStart := start }).1
    (∀ row ∈ (e.contents "nodes").toList, Record.decode row.2 = .ok record) ∧
      e.HasRoom "nodes" ∧ found none = .ok [⟨[1], record⟩] ∧
      found (some [1]) = .ok [⟨[1], record⟩] ∧
      found (some []) = .error (.engine "query" .badValueSize) := by
  intro record rows e found
  refine ⟨by decide +kernel, .inl (by decide), ?_⟩
  decide +kernel

end Environment

end LightningRecords

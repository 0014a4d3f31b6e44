import LightningRecords.Proofs.Store.Room

namespace LightningRecords

section Stretches

variable {α : Type} {r : α → α → Prop} {before inside : α → Bool} {items : List α}

-- A stretch that does not begin again once it has ended is all that it could be.
theorem takeWhile_eq_filter (h : items.Pairwise r)
    (hends : ∀ a ∈ items, ∀ b, r a b → inside a = false → inside b = false) :
    items.takeWhile inside = items.filter inside := by
  induction items with
  | nil => rfl
  | cons a rest ih =>
    obtain ⟨hfirst, hrest⟩ := List.pairwise_cons.mp h
    cases hinside : inside a with
    | true =>
      have hlater := ih hrest fun b hb => hends b (List.mem_cons_of_mem a hb)
      simp only [List.takeWhile_cons, List.filter_cons, hinside, if_true, hlater]
    | false =>
      have hnone : rest.filter inside = [] := by
        rw [List.filter_eq_nil_iff]
        intro b hb
        simp [hends a (by simp) b (hfirst b hb) hinside]
      simp [hinside, hnone]

-- Where it begins late, nothing of it is passed over.
theorem takeWhile_dropWhile_eq_filter (h : items.Pairwise r)
    (hbefore : ∀ a, before a = true → inside a = false)
    (hdown : ∀ a b, r a b → before b = true → before a = true)
    (hends : ∀ a b, r a b → before a = false → inside a = false → inside b = false) :
    (items.dropWhile before).takeWhile inside = items.filter inside := by
  induction items with
  | nil => rfl
  | cons a rest ih =>
    obtain ⟨hfirst, hrest⟩ := List.pairwise_cons.mp h
    cases ha : before a with
    | true =>
      simp only [List.dropWhile_cons, ha, if_true, ih hrest]
      simp [hbefore a ha]
    | false =>
      have hlate : ∀ b ∈ a :: rest, before b = false := by
        intro b hb
        rcases List.mem_cons.mp hb with rfl | hb
        · exact ha
        · cases hb' : before b with
          | false => rfl
          | true => rw [← ha, hdown a b (hfirst b hb) hb']
      simp only [List.dropWhile_cons, ha, Bool.false_eq_true, if_false]
      exact takeWhile_eq_filter h fun b hb c hbc => hends b c hbc (hlate b hb)

end Stretches

namespace Bytes

-- What begins with some bytes does not come before them.
theorem not_lt_of_isPrefix {start key : Bytes} (h : start <+: key) : compare key start ≠ .lt := by
  induction start generalizing key with
  | nil => cases key <;> simp [compare, List.compareLex]
  | cons s start ih =>
    obtain ⟨rest, rfl⟩ := h
    have hrest := ih (List.prefix_append start rest)
    have hself : Ord.compare s s = .eq := Std.ReflCmp.compare_self
    simp only [compare] at hrest ⊢
    rw [List.cons_append, List.compareLex_cons_cons, hself]
    exact hrest

-- The keys that begin with some bytes stand together: behind them none does.
theorem not_isPrefix_of_lt {start a b : Bytes} (ha : compare a start ≠ .lt) (hna : ¬start <+: a)
    (hab : compare a b = .lt) : ¬start <+: b := by
  induction start generalizing a b with
  | nil => exact absurd (List.nil_prefix) hna
  | cons s start ih =>
    rintro ⟨rest, rfl⟩
    cases a with
    | nil => exact ha rfl
    | cons x a =>
      simp only [compare, List.cons_append, List.compareLex_cons_cons] at ha hab ih
      cases hx : Ord.compare x s with
      | lt => simp [hx, Ordering.then] at ha
      | gt => simp [hx, Ordering.then] at hab
      | eq =>
        have heq : x = s := Std.LawfulEqCmp.eq_of_compare hx
        subst heq
        simp only [hx, Ordering.then] at ha hab
        refine ih ha (fun hprefix => hna ?_) hab (List.prefix_append start rest)
        exact (List.prefix_cons_inj x).mpr hprefix

end Bytes

namespace Query

-- Keys that begin as wanted and are not above the bound.
def Reaches (query : Query) (key : Bytes) : Prop :=
  (∀ start ∈ query.keyStart, start <+: key) ∧
    ∀ bound ∈ query.upperBound, Bytes.compare key bound ≠ .gt

instance (query : Query) (key : Bytes) : Decidable (query.Reaches key) :=
  inferInstanceAs (Decidable (_ ∧ _))

-- The entries that a query is about: of those it reaches the first, if it is limited.
def window (query : Query) (rows : Table) : List (Bytes × Bytes) :=
  let reached := rows.toList.filter fun row => query.Reaches row.1
  match query.limit with
  | some limit => reached.take limit
  | none => reached

theorem isPastEnd_eq (query : Query) (key : Bytes) :
    (!query.isPastEnd key) = decide (query.Reaches key) := by
  have hbound (bound : Bytes) :
      (!(Bytes.compare bound key == .lt)) = decide (Bytes.compare key bound ≠ .gt) := by
    have hswap : Bytes.compare bound key = (Bytes.compare key bound).swap :=
      Std.OrientedCmp.eq_swap
    rw [hswap]
    cases Bytes.compare key bound <;> rfl
  have hstart (start : Bytes) : start.isPrefixOf key = decide (start <+: key) := by
    rw [Bool.eq_iff_iff, List.isPrefixOf_iff_prefix, decide_eq_true_iff]
  unfold isPastEnd
  cases hs : query.keyStart <;> cases hb : query.upperBound <;>
    simp [Reaches, hs, hb, hbound, hstart]

variable {query : Query} {a b key : Bytes}

theorem Reaches.not_lt (h : query.Reaches key) :
    Bytes.compare key (query.keyStart.getD []) ≠ .lt := by
  cases hstart : query.keyStart with
  | none => exact Bytes.not_lt_of_isPrefix List.nil_prefix
  | some start => exact Bytes.not_lt_of_isPrefix (h.1 start hstart)

-- From the start on, what a query does not reach is behind all that it does.
theorem not_reaches_of_lt (hlate : Bytes.compare a (query.keyStart.getD []) ≠ .lt)
    (hout : ¬query.Reaches a) (hab : Bytes.compare a b = .lt) : ¬query.Reaches b := by
  rintro ⟨hstart, hbound⟩
  refine hout ⟨fun start hs => ?_, fun bound hb habove => hbound bound hb ?_⟩
  · rw [hs] at hlate
    by_contra hna
    exact Bytes.not_isPrefix_of_lt hlate hna hab (hstart start hs)
  · have hba : Bytes.compare b a = .gt := Std.OrientedCmp.gt_of_lt hab
    exact Std.TransCmp.gt_trans hba habove

end Query

namespace Environment

-- The scan from the first key at the start to the first that is past the end finds
-- whatever the query is about.
theorem stretch_eq_window (query : Query) (rows : Table) :
    stretch query rows = query.window rows := by
  have hscan : (rows.toList.dropWhile fun row =>
        Bytes.compare row.1 (query.keyStart.getD []) == .lt).takeWhile
        (fun row => !query.isPastEnd row.1) =
      rows.toList.filter fun row => query.Reaches row.1 := by
    simp only [Query.isPastEnd_eq]
    refine takeWhile_dropWhile_eq_filter rows.ascending ?_ ?_ ?_
    · intro row hrow
      rw [decide_eq_false_iff_not]
      exact fun hreaches => hreaches.not_lt (by simpa using hrow)
    · intro a b hab hb
      rw [beq_iff_eq] at hb ⊢
      exact Std.TransCmp.lt_trans hab hb
    · intro a b hab hlate hout
      rw [decide_eq_false_iff_not] at hout ⊢
      exact Query.not_reaches_of_lt (by simpa using hlate) hout hab
  unfold stretch Query.window
  cases query.limit <;> simp only [hscan]

variable {e : Environment} {table : String} {query : Query} {rows : Table}

theorem selectRows_of_records {records : List Record}
    (h : ((query.window rows).map fun row => Record.decode row.2) = records.map .ok) :
    selectRows table query rows =
      .ok ((((query.window rows).zip records).map fun x => Row.mk x.1.1 x.2).filter fun row =>
        query.accepts row.record) := by
  have hrows : ((query.window rows).map fun (row : Bytes × Bytes) =>
        (decodeRow table row.2).map fun record => Row.mk row.1 record) =
      (((query.window rows).zip records).map fun x => Row.mk x.1.1 x.2).map .ok := by
    generalize query.window rows = entries at h
    induction entries generalizing records with
    | nil => rfl
    | cons row rest ih =>
      cases records with
      | nil => cases h
      | cons record records =>
        obtain ⟨hrow, hrest⟩ := List.cons_eq_cons.mp h
        have hfirst : decodeRow table row.2 = .ok record := by
          simp only [decodeRow, show Record.decode row.2 = .ok record from hrow]
        rw [List.map_cons, ih hrest, hfirst]
        rfl
  rw [selectRows, stretch_eq_window, mapM_of_all_ok hrows]
  rfl

theorem selectRows_of_damage {before after : List (Bytes × Bytes)} {row : Bytes × Bytes}
    {error : DecodeError} (hrows : query.window rows = before ++ row :: after)
    (hbefore : ∀ r ∈ before, ∃ record, Record.decode r.2 = .ok record)
    (hrow : Record.decode row.2 = .error error) :
    selectRows table query rows = .error (.corrupted table (.undecodable error)) := by
  rw [selectRows, stretch_eq_window, hrows, mapM_of_first_error]
  · rfl
  · intro r hr
    obtain ⟨record, hrecord⟩ := hbefore r hr
    exact ⟨Row.mk r.1 record, by simp only [decodeRow, hrecord, Except.map]⟩
  · simp only [decodeRow, hrow, Except.map]

theorem window_ascending (query : Query) (rows : Table) :
    (query.window rows).Pairwise fun a b => Bytes.compare a.1 b.1 = .lt := by
  have hreached := rows.ascending.filter fun row => query.Reaches row.1
  unfold Query.window
  cases query.limit with
  | none => exact hreached
  | some limit => exact hreached.sublist (List.take_sublist _ _)

theorem window_of_idle (h : query.limit = some 0 ∨ rows = ∅) : query.window rows = [] := by
  rcases h with h | rfl
  · simp only [Query.window, h, List.take_zero]
  · unfold Query.window
    cases query.limit with
    | none => rfl
    | some limit => exact List.take_nil

theorem selectRows_of_idle (h : query.limit = some 0 ∨ rows = ∅) :
    selectRows table query rows = .ok [] := by
  rw [selectRows, stretch_eq_window, window_of_idle h]
  rfl

theorem query_of_room (hvalid : checkTable table = .ok ()) (hroom : e.HasRoom table)
    (hstart : query.keyStart ≠ some []) :
    (e.query table query).1 = selectRows table query (e.contents table) := by
  rw [Environment.query, checked_of_valid _ hvalid]
  split
  · rename_i hlimit
    rw [selectRows_of_idle (.inl hlimit)]
  · have hopened := openTable_of_room hroom
    cases hrows : e.tables.get? table with
    | some rows =>
      simp only [read, hopened, hrows, bind, Except.bind, contents_of_some hrows]
      cases selectRows table query rows <;> rfl
    | none =>
      simp only [read, hopened, hrows, bind, Except.bind, contents_of_none hrows]
      rw [selectRows_of_idle (.inr rfl)]

-- A query tells, in ascending key order, the entries that it is about and whose
-- records are wanted, or else the first of them that is no record. No other entry
-- matters to it.
theorem query_tells_window (hvalid : checkTable table = .ok ()) (hroom : e.HasRoom table)
    (hstart : query.keyStart ≠ some []) :
    let entries := query.window (e.contents table)
    entries.Pairwise (fun a b => Bytes.compare a.1 b.1 = .lt) ∧
    (∀ before row after error, entries = before ++ row :: after →
      (∀ r ∈ before, ∃ record, Record.decode r.2 = .ok record) →
      Record.decode row.2 = .error error →
      (e.query table query).1 = .error (.corrupted table (.undecodable error))) ∧
    (∀ records : List Record,
      (entries.map fun row => Record.decode row.2) = records.map .ok →
      (e.query table query).1 =
        .ok (((entries.zip records).map fun x => Row.mk x.1.1 x.2).filter fun row =>
          query.predicates.all fun (name, predicate) =>
            predicate.holds (row.record.get? name))) ∧
    (∀ e' : Environment, e'.HasRoom table → query.window (e'.contents table) = entries →
      (e'.query table query).1 = (e.query table query).1) ∧
    (query.limit = some 0 ∨ e.tables.get? table = none → (e.query table query).1 = .ok []) := by
  intro entries
  have hquery := query_of_room hvalid hroom hstart
  refine ⟨window_ascending query _, ?_, ?_, ?_, ?_⟩
  · intro before row after error hentries hbefore hrow
    rw [hquery, selectRows_of_damage hentries hbefore hrow]
  · intro records hrecords
    rw [hquery, selectRows_of_records hrecords]
    rfl
  · intro e' hroom' hsame
    rw [hquery, query_of_room hvalid hroom' hstart]
    simp only [selectRows, stretch_eq_window, hsame]
    rfl
  · intro hidle
    rw [hquery, selectRows_of_idle (hidle.imp_right contents_of_none)]

-- Two entries are told and a third is damaged, which matters only if it is among
-- those that the query is about. The entry behind it never does.
theorem query_tells_window_damaged :
    let first : Record := OrderedMap.insert ∅ "n" (.int 1)
    let second : Record := OrderedMap.insert ∅ "n" (.int 2)
    let rows : Table := OrderedMap.ofList
      [([1], first.encode), ([1, 2], second.encode), ([1, 3], [0xFF]), ([2], [])]
    let e : Environment :=
      { config := Config.minimal
        mapSize := 65536
        slots := []
        tables := OrderedMap.insert ∅ "nodes" rows }
    let all : Query := { keyStart := some [1], predicates := [("n", .greater (.int 1))] }
    let two : Query := { all with limit := some 2 }
    (e.query "nodes" two).1 = .ok [⟨[1, 2], second⟩] ∧
      (e.query "nodes" all).1 =
        .error (.corrupted "nodes" (.undecodable (.malformed ⟨.unexpectedCode, 1⟩))) := by
  intro first second rows e all two
  have hvalid : checkTable "nodes" = .ok () := by decide +kernel
  have hroom : e.HasRoom "nodes" := .inr (by decide +kernel)
  have hprefix : two.keyStart ≠ some [] := by decide
  have htwo := query_tells_window hvalid hroom hprefix
  have hprefix : all.keyStart ≠ some [] := by decide
  have hall := query_tells_window hvalid hroom hprefix
  constructor
  · rw [htwo.2.2.1 [first, second] (by decide +kernel)]
    decide +kernel
  · refine hall.2.1 [([1], first.encode), ([1, 2], second.encode)] ([1, 3], [0xFF]) [] _
      (by decide +kernel) ?_ (by decide +kernel)
    simp only [List.mem_cons, List.not_mem_nil, or_false]
    rintro r (rfl | rfl)
    · exact ⟨first, by decide +kernel⟩
    · exact ⟨second, by decide +kernel⟩

end Environment

end LightningRecords

import LightningRecords.Proofs.Store.Readable

namespace LightningRecords

namespace Environment

variable {e e' : Environment} {table : String} {key : Key} {record : Record}

-- The same store with another map size.
def resized (e : Environment) (size : UInt64) : Environment := { e with mapSize := size }

theorem fileSize_le (e : Environment) : e.fileSize ≤ e.mapSize := by
  unfold fileSize
  simp only [min]
  split
  · exact UInt64.le_refl _
  · exact UInt64.le_of_lt (UInt64.not_le.mp (by assumption))

-- The settings, the size of the map and what it has room for are as they were.
structure Sized (e e' : Environment) : Prop where
  config : e'.config = e.config
  mapSize : e'.mapSize = e.mapSize
  capacity : e'.capacity = e.capacity

theorem Sized.refl (e : Environment) : e.Sized e := ⟨rfl, rfl, rfl⟩

theorem Sized.setRows (h : e.Sized e') (table : String) (rows : Table) :
    e.Sized (e'.setRows table rows) := ⟨h.config, h.mapSize, h.capacity⟩

theorem takeSlot_sized {operation : String} (h : e.takeSlot operation table = .ok e') :
    e.Sized e' := by
  unfold takeSlot at h
  split at h
  · cases h
    exact .refl e
  · split at h
    · cases h
    · cases h
      exact ⟨rfl, rfl, rfl⟩

theorem openTable_sized {rows : Option Table} (h : e.openTable table = .ok (rows, e')) :
    e.Sized e' := by
  obtain ⟨opened, hopened, h⟩ := bind_eq_ok_iff.mp h
  have hsized := takeSlot_sized hopened
  split at h
  · cases h
    exact hsized
  · cases h
    exact .refl e

theorem createTable_sized {rows : Table} (h : e.createTable table = .ok (rows, e')) :
    e.Sized e' := by
  obtain ⟨opened, hopened, h⟩ := bind_eq_ok_iff.mp h
  have hsized := takeSlot_sized hopened
  split at h
  · cases h
    exact hsized
  · cases h
    exact ⟨hsized.config, hsized.mapSize, hsized.capacity⟩

theorem storeRow_sized {opened : Environment} {operation : String} {rows : Table}
    {keyBytes bytes : Bytes} (hopened : e.Sized opened)
    (h : opened.storeRow operation table rows keyBytes bytes = .ok e') : e.Sized e' := by
  obtain ⟨_, rfl⟩ := storeRow_eq_ok h
  exact hopened.setRows table _

theorem get_sized {stored : Option Record} (h : e.get table key = (.ok stored, e')) :
    e.Sized e' := by
  obtain ⟨⟨rows, opened⟩, hopened, h⟩ := bind_eq_ok_iff.mp (read_eq_ok (checked_eq_ok h))
  have hsized := openTable_sized hopened
  cases rows with
  | none =>
    cases h
    exact hsized
  | some rows =>
    obtain ⟨_, _, h⟩ := bind_eq_ok_iff.mp h
    cases h
    exact hsized

theorem put_sized {fresh : Option (List String)} (h : e.put table key record fresh = (.ok (), e')) :
    e.Sized e' := by
  obtain ⟨⟨rows, opened⟩, hopened, h⟩ := bind_eq_ok_iff.mp (write_eq_ok (checked_eq_ok h))
  have hsized := createTable_sized hopened
  obtain ⟨stored, _, h⟩ := bind_eq_ok_iff.mp h
  cases stored with
  | none =>
    obtain ⟨_, hrow, h⟩ := bind_eq_ok_iff.mp h
    cases h
    exact storeRow_sized hsized hrow
  | some found =>
    obtain ⟨_, _, h⟩ := bind_eq_ok_iff.mp h
    obtain ⟨_, hrow, h⟩ := bind_eq_ok_iff.mp h
    cases h
    exact storeRow_sized (hsized.setRows table _) hrow

theorem update_sized {changes : Changes} {expected : Option Record}
    (h : e.update table key changes expected = (.ok record, e')) : e.Sized e' := by
  obtain ⟨⟨rows, opened⟩, hopened, h⟩ := bind_eq_ok_iff.mp (write_eq_ok (checked_eq_ok h))
  have hsized := openTable_sized hopened
  cases rows with
  | none => cases h
  | some rows =>
    obtain ⟨found, _, h⟩ := bind_eq_ok_iff.mp h
    cases found with
    | none => cases h
    | some stored =>
      obtain ⟨_, _, h⟩ := bind_eq_ok_iff.mp h
      obtain ⟨_, _, h⟩ := bind_eq_ok_iff.mp h
      obtain ⟨_, hrow, h⟩ := bind_eq_ok_iff.mp h
      cases h
      exact storeRow_sized hsized hrow

theorem remove_sized {removed : Bool} (h : e.remove table key = (.ok removed, e')) :
    e.Sized e' := by
  obtain ⟨⟨rows, opened⟩, hopened, h⟩ := bind_eq_ok_iff.mp (write_eq_ok (checked_eq_ok h))
  have hsized := openTable_sized hopened
  cases rows with
  | none =>
    cases h
    exact hsized
  | some rows =>
    cases h
    exact hsized.setRows table _

theorem query_sized {query : Query} {rows : List Row}
    (h : e.query table query = (.ok rows, e')) : e.Sized e' := by
  have h := checked_eq_ok h
  split at h
  · cases h
    exact .refl e
  · obtain ⟨⟨found, opened⟩, hopened, h⟩ := bind_eq_ok_iff.mp (read_eq_ok h)
    have hsized := openTable_sized hopened
    cases found with
    | none =>
      cases h
      exact hsized
    | some found =>
      simp only at h
      split at h
      · cases h
      · obtain ⟨_, _, h⟩ := bind_eq_ok_iff.mp h
        cases h
        exact hsized

theorem length_sized {entries : Nat} (h : e.length table = (.ok entries, e')) : e.Sized e' := by
  obtain ⟨⟨rows, opened⟩, hopened, h⟩ := bind_eq_ok_iff.mp (read_eq_ok (checked_eq_ok h))
  have hsized := openTable_sized hopened
  cases rows <;> cases h <;> exact hsized

theorem stats_sized {stats : Stats} (h : e.stats table = (.ok stats, e')) : e.Sized e' := by
  cases hlength : e.length table with
  | mk entries after =>
    simp only [Environment.stats, hlength] at h
    cases entries with
    | error error => cases h
    | ok entries =>
      cases h
      exact length_sized hlength

theorem obey_sized {c : Command} {result : c.Result} (h : e.obey c = (.ok result, e')) :
    e.Sized e' := by
  cases c with
  | get table key => exact get_sized h
  | put table key record fresh => exact put_sized h
  | update table key changes expected => exact update_sized h
  | remove table key => exact remove_sized h
  | query table query => exact query_sized h
  | length table => exact length_sized h
  | stats table => exact stats_sized h

-- Whatever is asked of a store, its map is as large as it was or was grown.
theorem obey_resizes {c : Command} {result : Except StoreError c.Result}
    (h : e.obey c = (result, e')) :
    e'.config = e.config ∧ e'.capacity = e.capacity ∧
      (e'.mapSize = e.mapSize ∨ e'.mapSize = e.config.grownMapSize e.mapSize e.fileSize) := by
  cases result with
  | ok result =>
    have hsized := obey_sized h
    exact ⟨hsized.config, hsized.capacity, .inl hsized.mapSize⟩
  | error error =>
    rcases obey_fails h with ⟨_, hsame⟩ | ⟨_, _, hgrown⟩
    · rw [hsame]
      exact ⟨rfl, rfl, .inl rfl⟩
    · rw [hgrown, grow_eq]
      exact ⟨rfl, rfl, .inr rfl⟩

-- By induction over the commands: what one does not shrink, none of them does.
theorem mapSize_le_obeyAll (e : Environment) (commands : List Command) :
    e.mapSize ≤ (e.obeyAll commands).mapSize := by
  induction commands generalizing e with
  | nil => exact UInt64.le_refl _
  | cons c rest ih =>
    refine UInt64.le_trans ?_ (ih (e.obey c).2)
    rcases (obey_resizes (Prod.mk.eta (p := e.obey c)).symm).2.2 with hsize | hsize
    · exact UInt64.le_of_eq hsize.symm
    · rw [hsize]
      exact e.config.le_grownMapSize e.mapSize e.fileSize

-- Map sizes are what rounding makes of sizes, from the opening on.
theorem exists_round_obeyAll (e : Environment) (commands : List Command)
    (h : ∃ size, e.mapSize = roundToGranule size) :
    (e.obeyAll commands).config = e.config ∧ (e.obeyAll commands).capacity = e.capacity ∧
      ∃ size, (e.obeyAll commands).mapSize = roundToGranule size := by
  induction commands generalizing e with
  | nil => exact ⟨rfl, rfl, h⟩
  | cons c rest ih =>
    obtain ⟨hconfig, hcapacity, hsize⟩ := obey_resizes (Prod.mk.eta (p := e.obey c)).symm
    have hround : ∃ size, (e.obey c).2.mapSize = roundToGranule size := by
      rcases hsize with hsize | hsize
      · rw [hsize]
        exact h
      · exact ⟨_, hsize⟩
    obtain ⟨hlater, hrule, hrounds⟩ := ih (e.obey c).2 hround
    exact ⟨hlater.trans hconfig, hrule.trans hcapacity, hrounds⟩

end Environment

end LightningRecords

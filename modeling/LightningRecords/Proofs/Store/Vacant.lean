import LightningRecords.Proofs.Store.Slots

namespace LightningRecords.Environment

variable {e e' : Environment} {table other : String} {key : Key} {limit : Nat}

section Founded

theorem exists_of_keeps (hkeeps : e.Keeps e') (h : e'.Exists other) : e.Exists other := by
  rwa [Exists, hkeeps.tables] at h

theorem remove_founds_nothing {removed : Bool} (h : e.remove table key = (.ok removed, e'))
    (hexists : e'.Exists other) : e.Exists other := by
  obtain ⟨⟨rows, opened⟩, hopened, hdone⟩ := bind_eq_ok_iff.mp (write_eq_ok (checked_eq_ok h))
  obtain ⟨hkeeps, _, hrows, _⟩ := openTable_eq_ok hopened
  cases rows with
  | none =>
    cases hdone
    exact exists_of_keeps hkeeps hexists
  | some rows =>
    cases hdone
    rcases (exists_setRows _).mp hexists with rfl | hexists
    · rw [Exists, ← hrows]
      rfl
    · exact exists_of_keeps hkeeps hexists

-- A table comes to exist only with a record that is stored in it.
theorem stored_of_exists {record : Record} (hwrites : e.Writes table key record e')
    (h : e'.Exists other) : e.Exists other ∨ table = other := by
  by_cases htable : other = table
  · exact .inr htable.symm
  · rw [Exists, hwrites.tables, OrderedMap.get?_insert_of_ne _ _ htable] at h
    exact .inl h

theorem obey_founds {c : Command} (h : (e.obey c).2.Exists other) :
    e.Exists other ∨ ∃ entry ∈ c.stored? (e.obey c).1, entry.1 = other := by
  cases hobey : e.obey c with
  | mk result e' =>
    rw [hobey] at h
    cases result with
    | error error =>
      rw [Exists, (obey_fails hobey).restores.tables] at h
      exact .inl h
    | ok result =>
      cases c with
      | get table key => exact .inl (exists_of_keeps (get_keeps hobey) h)
      | put table key record fresh =>
        exact (stored_of_exists (put_eq_ok hobey).1 h).imp_right fun heq => ⟨_, rfl, heq⟩
      | update table key changes expected =>
        exact (stored_of_exists (update_eq_ok hobey).1 h).imp_right fun heq => ⟨_, rfl, heq⟩
      | remove table key => exact .inl (remove_founds_nothing hobey h)
      | query table asked => exact .inl (exists_of_keeps (query_keeps hobey) h)
      | length table => exact .inl (exists_of_keeps (length_keeps hobey) h)
      | stats table => exact .inl (exists_of_keeps (stats_keeps hobey) h)

-- By induction over the commands: none of them founds a table that none stores into.
theorem not_exists_obeyAll (commands : List Command) (h : ¬e.Exists table)
    (hstores : ∀ entry ∈ e.stores commands, entry.1 ≠ table) :
    ¬(e.obeyAll commands).Exists table := by
  induction commands generalizing e with
  | nil => exact h
  | cons c rest ih =>
    rw [stores, List.forall_mem_append] at hstores
    refine ih (fun hexists => ?_) hstores.2
    rcases obey_founds hexists with hexists | ⟨entry, hentry, htable⟩
    · exact h hexists
    · exact hstores.1 entry (Option.mem_toList.mpr hentry) htable

end Founded

-- A table that reads as one without records, and nothing comes of reading it.
structure ReadsEmpty (e : Environment) (table : String) : Prop where
  get : ∀ key, e.get table key = (.ok none, e)
  query : ∀ asked, e.query table asked = (.ok [], e)
  length : e.length table = (.ok 0, e)
  stats : e.stats table = (.ok ⟨0, e.mapSize⟩, e)
  remove : ∀ key, e.remove table key = (.ok false, e)
  update : ∀ key changes expected,
    e.update table key changes expected = (.error (.notFound table), e)

-- A table that is turned away, whatever is asked of it.
def TurnsAway (e : Environment) (table : String) : Prop :=
  ∀ c : Command, c.Looks → c.table = table →
    e.obey c = (.error (.engine c.opening .tablesFull), e)

theorem openTable_of_vacant (hroom : e.HasRoom table) (h : ¬e.Exists table) :
    e.openTable table = .ok (none, e) := by
  have hrows : e.tables.get? table = none := by simpa [Exists] using h
  have hopened : e.opened table = e := if_neg h
  rw [openTable_of_room hroom, hrows, hopened]

theorem readsEmpty_of_room (hvalid : checkTable table = .ok ()) (hroom : e.HasRoom table)
    (h : ¬e.Exists table) : e.ReadsEmpty table := by
  have hopen := openTable_of_vacant hroom h
  have hlength : e.length table = (.ok 0, e) := by
    simp only [length, checked_of_valid _ hvalid, read, hopen, bind, Except.bind]
  constructor
  · intro key
    simp only [get, checked_of_valid _ hvalid, read, hopen, bind, Except.bind]
  · intro asked
    simp only [query, checked_of_valid _ hvalid, read, hopen, bind, Except.bind, ite_self]
  · exact hlength
  · simp only [stats, hlength, Except.map]
  · intro key
    simp only [remove, checked_of_valid _ hvalid, write, hopen, bind, Except.bind]
  · intro key changes expected
    simp only [update, checked_of_valid _ hvalid, write, hopen, bind, Except.bind,
      StoreError.isMapLimit, Bool.false_eq_true, if_false]

theorem Slotted.vacant (h : e.Slotted limit) (hvalid : checkTable table = .ok ())
    (hvacant : ¬e.Exists table) :
    e.slots.length < limit ∧ e.ReadsEmpty table ∨ e.slots.length = limit ∧ e.TurnsAway table := by
  have hseat : table ∉ e.slots := fun hmem => hvacant (h.exist table hmem)
  rcases Nat.lt_or_eq_of_le h.bounded with hless | hfull
  · have hroom : e.HasRoom table := .inr (h.allowed ▸ hless)
    exact .inl ⟨hless, readsEmpty_of_room hvalid hroom hvacant⟩
  · refine .inr ⟨hfull, ?_⟩
    rintro c hlooks rfl
    exact obey_of_crowded hlooks hvalid fun hroom => h.hasRoom_iff.mp hroom ⟨hseat, hfull⟩

-- A table that an earlier opening has not left and that nothing was stored in reads as empty
-- for as long as a slot is left.
theorem vacant_reads_empty (config : Config) (fileSize : UInt64) (tables : Tables)
    (capacity : Capacity) (commands : List Command) (table : String)
    (hvalid : checkTable table = .ok ())
    (hvacant : tables.get? table = none)
    (hstores : ∀ entry ∈ (start config fileSize tables capacity).stores commands, entry.1 ≠ table) :
    let e := (start config fileSize tables capacity).obeyAll commands
    e.slots.length < config.maxTables.toNat ∧ e.ReadsEmpty table ∨
      e.slots.length = config.maxTables.toNat ∧ e.TurnsAway table := by
  have hslotted := (slotted_start config fileSize tables capacity).obeyAll commands
  have hstart : ¬(start config fileSize tables capacity).Exists table := by
    simp [Exists, start, hvacant]
  exact hslotted.vacant hvalid (not_exists_obeyAll commands hstart hstores)

theorem vacant_reads_empty_peers :
    let key : Key := ⟨List.replicate 32 0, rfl⟩
    let commands : List Command := [.put "nodes" key ∅ none, .get "peers" key]
    let e := (start Config.minimal 0 ∅).obeyAll commands
    e.slots = ["nodes"] ∧ e.ReadsEmpty "peers" := by
  intro key commands e
  have hslots : e.slots = ["nodes"] := by decide +kernel
  refine ⟨hslots, ?_⟩
  rcases vacant_reads_empty Config.minimal 0 ∅ .byWeight commands "peers" (by decide +kernel) rfl
    (by decide +kernel) with ⟨_, hempty⟩ | ⟨hfull, _⟩
  · exact hempty
  · exact absurd (hslots ▸ hfull : ["nodes"].length = 64) (by decide)

-- With the only slot taken, a table that nothing was ever stored in does not read as empty.
theorem vacant_turned_away :
    let key : Key := ⟨List.replicate 32 0, rfl⟩
    let config : Config := { Config.minimal with maxTables := 1 }
    let commands : List Command := [.put "nodes" key ∅ none]
    let e := (start config 0 ∅).obeyAll commands
    let error : StoreError := .engine "open table" .tablesFull
    config.validate = .ok () ∧ checkTable "peers" = .ok () ∧
      (∀ entry ∈ (start config 0 ∅).stores commands, entry.1 ≠ "peers") ∧
      e.tables.get? "peers" = none ∧
      e.get "peers" key = (.error error, e) ∧ e.query "peers" {} = (.error error, e) ∧
      e.length "peers" = (.error error, e) ∧ e.remove "peers" key = (.error error, e) ∧
      e.update "peers" key {} none = (.error error, e) := by
  intro key config commands e error
  have hslots : e.slots = ["nodes"] := by decide +kernel
  have htables : e.config.maxTables = 1 := by decide +kernel
  have hvalid : checkTable "peers" = .ok () := by decide +kernel
  have hcrowded : ¬e.HasRoom "peers" := by
    rw [HasRoom, hslots, htables]
    decide
  have hturned (c : Command) (hlooks : c.Looks) (htable : c.table = "peers") :
      e.obey c = (.error (.engine c.opening .tablesFull), e) :=
    obey_of_crowded hlooks (htable ▸ hvalid) (htable ▸ hcrowded)
  exact ⟨by decide +kernel, hvalid, by decide +kernel, by decide +kernel,
    hturned (.get "peers" key) trivial rfl,
    hturned (.query "peers" {}) (Option.some_ne_none 0).symm rfl,
    hturned (.length "peers") trivial rfl, hturned (.remove "peers" key) trivial rfl,
    hturned (.update "peers" key {} none) trivial rfl⟩

end LightningRecords.Environment

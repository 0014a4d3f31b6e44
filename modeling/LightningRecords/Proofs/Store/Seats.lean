import LightningRecords.Proofs.Store.Growth

namespace LightningRecords

theorem OrderedMap.insert_comm {κ α : Type} {cmp : κ → κ → Ordering} [Std.TransCmp cmp]
    [Std.LawfulEqCmp cmp] (m : OrderedMap cmp α) {k k' : κ} (hne : k ≠ k') (v w : α) :
    (m.insert k v).insert k' w = (m.insert k' w).insert k v := by
  apply OrderedMap.ext_get?
  intro other
  by_cases h : other = k
  · subst h
    simp [hne]
  · by_cases h' : other = k'
    · subst h'
      simp [h]
    · simp [h, h']

namespace Environment

variable {e : Environment} {table other : String} {key otherKey : Key} {record : Record}
  {written later : Option Record}

-- The store after a record was looked for and another was put in its place, or none was.
def after (e : Environment) (table : String) (key : Key) : Option Record → Environment
  | none => e.opened table
  | some record => e.deposit table key record

section Slots

theorem mem_slots_seated (e : Environment) (table : String) : table ∈ (e.seated table).slots := by
  unfold seated
  split
  · assumption
  · simp

theorem subset_slots_seated (e : Environment) (table : String) :
    e.slots ⊆ (e.seated table).slots := by
  unfold seated
  split
  · exact List.Subset.refl _
  · exact List.subset_append_left _ _

theorem opened_eq_self_iff :
    e.opened table = e ↔ ((e.tables.get? table).isSome = true → table ∈ e.slots) := by
  constructor
  · intro h hsome
    rw [opened, if_pos hsome] at h
    rw [← h]
    exact e.mem_slots_seated table
  · intro h
    unfold opened
    split
    · rename_i hsome
      exact seated_of_mem (h hsome)
    · rfl

theorem contents_seated (e : Environment) (table : String) :
    (e.seated table).contents = e.contents := by
  funext other
  rw [contents, tables_seated, contents]

theorem opened_eq (e : Environment) (table : String) :
    e.opened table = e ∨ e.opened table = e.seated table := by
  unfold opened
  split
  · exact .inr rfl
  · exact .inl rfl

theorem contents_opened (e : Environment) (table : String) :
    (e.opened table).contents = e.contents := by
  rcases e.opened_eq table with h | h
  · rw [h]
  · rw [h, contents_seated]

end Slots

section After

theorem contents_deposit (e : Environment) (table : String) (key : Key) (record : Record) :
    (e.deposit table key record).contents table =
      (e.contents table).insert key.bytes record.encode := by
  simp [deposit, contents, setRows]

theorem contents_deposit_of_ne (e : Environment) (key : Key) (record : Record)
    (hne : other ≠ table) : (e.deposit table key record).contents other = e.contents other := by
  simp [deposit, contents, setRows, tables_seated, hne]

theorem deposit_seated (e : Environment) (table : String) (key : Key) (record : Record) :
    (e.seated table).deposit table key record = e.deposit table key record := by
  rw [deposit, seated_of_mem (e.mem_slots_seated table), contents_seated, deposit]

theorem deposit_opened (e : Environment) (table : String) (key : Key) (record : Record) :
    (e.opened table).deposit table key record = e.deposit table key record := by
  rcases e.opened_eq table with h | h
  · rw [h]
  · rw [h, deposit_seated]

theorem isFullFor_opened (e : Environment) (table : String) (key : Key) (record : Record) :
    (e.opened table).IsFullFor table key record ↔ e.IsFullFor table key record := by
  have hserves := e.serves_opened table
  simp only [IsFullFor, isFull, hserves.mapSize, hserves.capacity, e.deposit_opened]

theorem mem_slots_deposit (e : Environment) (table : String) (key : Key) (record : Record) :
    table ∈ (e.deposit table key record).slots := e.mem_slots_seated table

-- A table that was looked at once can be looked at again and nothing is taken.
theorem opened_after (e : Environment) (table : String) (key : Key) (written : Option Record) :
    (e.after table key written).opened table = e.after table key written := by
  cases written with
  | some record => exact opened_of_mem (e.mem_slots_deposit table key record)
  | none =>
    rw [after, opened_eq_self_iff]
    intro hsome
    unfold opened at hsome ⊢
    split
    · exact e.mem_slots_seated table
    · rename_i hnone
      rw [if_neg hnone] at hsome
      exact absurd hsome hnone

theorem deposit_deposit (e : Environment) (table : String) (record later : Record)
    (hne : key ≠ otherKey) :
    (e.deposit table key record).deposit table otherKey later =
      (e.deposit table otherKey later).deposit table key record := by
  have hbytes : key.bytes ≠ otherKey.bytes := fun heq => hne (key_bytes_inj heq)
  rw [deposit, contents_deposit, seated_of_mem (e.mem_slots_deposit table key record), deposit,
    deposit, contents_deposit, seated_of_mem (e.mem_slots_deposit table otherKey later), deposit,
    OrderedMap.insert_comm _ hbytes]
  simp only [setRows, OrderedMap.insert_insert]

theorem after_opened (e : Environment) (table : String) (key : Key) (written : Option Record) :
    (e.opened table).after table key written = e.after table key written := by
  cases written with
  | some record => exact e.deposit_opened table key record
  | none => exact e.opened_after table key none

-- Records under different keys of a table may be put there in any order.
theorem after_after (e : Environment) (table : String) (written later : Option Record)
    (hne : key ≠ otherKey) :
    (e.after table key written).after table otherKey later =
      (e.after table otherKey later).after table key written := by
  cases written with
  | none =>
    cases later with
    | none => rfl
    | some later =>
      change (e.opened table).deposit table otherKey later =
        (e.after table otherKey (some later)).opened table
      rw [deposit_opened, opened_after]
      rfl
  | some record =>
    cases later with
    | none =>
      change (e.after table key (some record)).opened table =
        (e.opened table).deposit table key record
      rw [deposit_opened, opened_after]
      rfl
    | some later => exact e.deposit_deposit table record later hne

theorem contents_after (e : Environment) (table : String) (key : Key) (written : Option Record)
    {bytes : Bytes} (hne : ¬(other = table ∧ bytes = key.bytes)) :
    ((e.after table key written).contents other).get? bytes = (e.contents other).get? bytes := by
  cases written with
  | none => rw [after, contents_opened]
  | some record =>
    by_cases htable : other = table
    · subst htable
      have hbytes : bytes ≠ key.bytes := fun heq => hne ⟨rfl, heq⟩
      rw [after, contents_deposit, OrderedMap.get?_insert_of_ne _ _ hbytes]
    · rw [after, contents_deposit_of_ne e key record htable]

theorem held_after (e : Environment) (table : String) (key : Key) (written : Option Record)
    (hne : ¬(other = table ∧ otherKey = key)) :
    (e.after table key written).held other otherKey = e.held other otherKey := by
  have hbytes : ¬(other = table ∧ otherKey.bytes = key.bytes) := fun h =>
    hne ⟨h.1, key_bytes_inj h.2⟩
  rw [held, findRow, e.contents_after table key written hbytes, held, findRow]

theorem subset_slots_after (e : Environment) (table : String) (key : Key)
    (written : Option Record) : e.slots ⊆ (e.after table key written).slots := by
  cases written with
  | some record => exact e.subset_slots_seated table
  | none =>
    rcases e.opened_eq table with h | h
    · rw [after, h]
      exact List.Subset.refl _
    · rw [after, h]
      exact e.subset_slots_seated table

theorem get?_tables_after (e : Environment) (key : Key) (written : Option Record)
    (hne : other ≠ table) :
    (e.after table key written).tables.get? other = e.tables.get? other := by
  cases written with
  | some record => simp [after, deposit, setRows, tables_seated, hne]
  | none =>
    rcases e.opened_eq table with h | h
    · rw [after, h]
    · rw [after, h, tables_seated]

-- A table that has been looked at stays so, whatever is put under another key.
theorem opened_after_of_opened (h : e.opened other = e) (table : String) (key : Key)
    (written : Option Record) :
    (e.after table key written).opened other = e.after table key written := by
  by_cases htable : other = table
  · subst htable
    exact e.opened_after other key written
  · rw [opened_eq_self_iff] at h ⊢
    rw [e.get?_tables_after key written htable]
    exact fun hsome => e.subset_slots_after table key written (h hsome)

-- The same store with another map.
def remapped (e : Environment) (size : UInt64) (capacity : Capacity) : Environment :=
  { e with mapSize := size, capacity }

theorem after_remapped (e : Environment) (size : UInt64) (capacity : Capacity) (table : String)
    (key : Key) (written : Option Record) :
    (e.remapped size capacity).after table key written =
      (e.after table key written).remapped size capacity := by
  have hseated : (e.remapped size capacity).seated table =
      (e.seated table).remapped size capacity := by
    by_cases hseat : table ∈ e.slots
    · rw [seated_of_mem hseat, seated_of_mem (e := e.remapped size capacity) hseat]
    · have hsame : table ∉ (e.remapped size capacity).slots := hseat
      rw [seated, if_neg hsame, seated, if_neg hseat]
      rfl
  cases written with
  | some record =>
    rw [after, deposit, hseated]
    rfl
  | none =>
    change (e.remapped size capacity).opened table = (e.opened table).remapped size capacity
    by_cases hsome : (e.tables.get? table).isSome = true
    · have hsame : ((e.remapped size capacity).tables.get? table).isSome = true := hsome
      rw [opened, if_pos hsame, opened, if_pos hsome, hseated]
    · have hsame : ¬((e.remapped size capacity).tables.get? table).isSome = true := hsome
      rw [opened, if_neg hsame, opened, if_neg hsome]

theorem deposit_remapped (e : Environment) (size : UInt64) (capacity : Capacity) (table : String)
    (key : Key) (record : Record) :
    (e.remapped size capacity).deposit table key record =
      (e.deposit table key record).remapped size capacity :=
  e.after_remapped size capacity table key (some record)

theorem deposit_resized (e : Environment) (size : UInt64) (table : String) (key : Key)
    (record : Record) :
    (e.resized size).deposit table key record = (e.deposit table key record).resized size := by
  have hsame := e.deposit_remapped size e.capacity table key record
  nth_rewrite 2 [← (e.serves_deposit table key record).capacity] at hsame
  exact hsame

-- The same store with the largest map there is, which is full for no record.
def ample (e : Environment) : Environment := e.remapped (UInt64.ofNat maxSize) .byLength

theorem ample_after (e : Environment) (table : String) (key : Key) (written : Option Record) :
    (e.after table key written).ample = e.ample.after table key written :=
  (e.after_remapped _ _ table key written).symm

theorem ample_grow (e : Environment) : (e.grow e.mapSize).ample = e.ample := by
  rw [grow_eq, ample, ample, remapped, remapped]

theorem capacity_after (e : Environment) (table : String) (key : Key) (written : Option Record) :
    (e.after table key written).capacity = e.capacity := by
  cases written with
  | some record => exact (e.serves_deposit table key record).capacity
  | none => exact (e.serves_opened table).capacity

theorem mapSize_after (e : Environment) (table : String) (key : Key) (written : Option Record) :
    (e.after table key written).mapSize = e.mapSize := by
  cases written with
  | some record => exact (e.serves_deposit table key record).mapSize
  | none => exact (e.serves_opened table).mapSize

end After

section Rooms

variable {tables : List String}

-- There are slots for all of these tables.
def HasRooms (e : Environment) (tables : List String) : Prop :=
  (tables.filter (· ∉ e.slots)).length + e.slots.length ≤ e.config.maxTables.toNat

instance (e : Environment) (tables : List String) : Decidable (e.HasRooms tables) :=
  inferInstanceAs (Decidable (_ ≤ _))

theorem HasRooms.hasRoom (h : e.HasRooms tables) (htable : table ∈ tables) : e.HasRoom table := by
  by_cases hseat : table ∈ e.slots
  · exact .inl hseat
  · have hmem : table ∈ tables.filter (· ∉ e.slots) := by simp [htable, hseat]
    have hpositive := List.length_pos_of_mem hmem
    unfold HasRooms at h
    exact .inr (by omega)

-- A slot that is taken by one of the tables is not one that others need.
theorem HasRooms.seated (h : e.HasRooms tables) (htable : table ∈ tables) :
    (e.seated table).HasRooms tables := by
  by_cases hseat : table ∈ e.slots
  · rwa [seated_of_mem hseat]
  · have hslots : (e.seated table).slots = e.slots ++ [table] := by
      rw [Environment.seated, if_neg hseat]
    have hconfig : (e.seated table).config = e.config := (e.serves_seated table).config
    have hfilter : tables.filter (· ∉ e.slots ++ [table]) =
        (tables.filter (· ∉ e.slots)).filter (· ≠ table) := by
      rw [List.filter_filter]
      refine List.filter_congr fun other _ => ?_
      simp [Bool.and_comm]
    have hless : ((tables.filter (· ∉ e.slots)).filter (· ≠ table)).length <
        (tables.filter (· ∉ e.slots)).length := by
      rw [List.length_filter_lt_length_iff_exists]
      exact ⟨table, by simp [htable, hseat], by simp⟩
    unfold HasRooms at h ⊢
    rw [hslots, hconfig, hfilter, List.length_append, List.length_singleton]
    omega

theorem hasRooms_ample : e.ample.HasRooms tables ↔ e.HasRooms tables := Iff.rfl

theorem HasRooms.after (h : e.HasRooms tables) (htable : table ∈ tables) (key : Key)
    (written : Option Record) : (e.after table key written).HasRooms tables := by
  have hseated := h.seated htable
  cases written with
  | some record => exact hseated
  | none =>
    rcases e.opened_eq table with hsame | hsame
    · rwa [Environment.after, hsame]
    · rwa [Environment.after, hsame]

end Rooms

section Sizes

-- All rows of these tables are rows of one of the two stores.
def Mixes (e e' : Environment) (tables : Tables) : Prop :=
  ∀ table rows, tables.get? table = some rows → ∀ key bytes, rows.get? key = some bytes →
    (e.contents table).get? key = some bytes ∨ (e'.contents table).get? key = some bytes

theorem mixes_tables_iff {e e' other : Environment} : e.Mixes e' other.tables ↔
    ∀ table key bytes, (other.contents table).get? key = some bytes →
      (e.contents table).get? key = some bytes ∨ (e'.contents table).get? key = some bytes := by
  constructor
  · intro h table key bytes hfound
    cases hrows : other.tables.get? table with
    | none =>
      rw [contents_of_none hrows] at hfound
      cases hfound
    | some rows =>
      rw [contents_of_some hrows] at hfound
      exact h table rows hrows key bytes hfound
  · intro h table rows hrows key bytes hfound
    rw [← contents_of_some hrows] at hfound
    exact h table key bytes hfound

-- All rows of a later store fit the map, each by itself and with any of the rows that were
-- there and that came to be.
structure Fits (e e' : Environment) : Prop where
  rows : ∀ table key bytes, (e'.contents table).get? key = some bytes →
    bytes.length ≤ e.mapSize.toNat
  tables : ∀ tables, e.Mixes e' tables → e.capacity.isFull e.mapSize tables = false

-- They fit once they are there, too, if the map is still the same.
theorem Fits.self {e e' : Environment} (h : e.Fits e') (hsize : e.mapSize = e'.mapSize)
    (hcapacity : e.capacity = e'.capacity) : e'.Fits e' where
  rows := by
    rw [← hsize]
    exact h.rows
  tables := by
    intro tables hmixes
    rw [← hsize, ← hcapacity]
    refine h.tables tables fun table rows hrows key bytes hfound => .inr ?_
    exact (hmixes table rows hrows key bytes hfound).elim id id

end Sizes

end Environment

end LightningRecords

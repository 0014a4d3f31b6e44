import LightningRecords.Proofs.Procedure.Calls

namespace LightningRecords

namespace Schema

variable {schema other : Schema}

theorem eq_of_table_eq (h : schema ∈ all) (hother : other ∈ all)
    (heq : schema.table = other.table) : schema = other := by
  have hall : ∀ a ∈ all, ∀ b ∈ all, a.table = b.table → a = b := by decide
  exact hall schema h other hother heq

theorem checkTable_of_mem (h : schema ∈ all) : Environment.checkTable schema.table = .ok () := by
  revert schema
  decide

theorem unique_ne_revision (h : schema ∈ all) : schema.unique ≠ Record.revisionAttribute := by
  revert schema
  decide

theorem not_varies_unique (h : schema ∈ all) : ¬schema.Varies schema.unique := by
  revert schema
  decide

end Schema

-- Versions of one record: a draft with the first revision, and each after that
-- an update of the one before.
inductive Lineage (schema : Schema) : List Record → Prop where
  | nil : Lineage schema []
  | first {fresh : Record} (h : schema.Drafts fresh) :
      Lineage schema [fresh.insert Record.revisionAttribute (.int Schema.baseRevision)]
  | next {versions : List Record} {last record : Record} {changes : Changes}
      (h : Lineage schema versions) (hlast : versions.getLast? = some last)
      (hchanges : changes.Revises schema.Varies) (happly : changes.apply last = .ok record) :
      Lineage schema (versions ++ [record])

namespace Lineage

variable {schema : Schema} {versions : List Record}

-- The revision of a version is its place.
theorem revision (h : Lineage schema versions) {n : Nat} {record : Record}
    (hn : versions[n]? = some record) :
    ∃ revision, record.get? Record.revisionAttribute = some (.int revision) ∧
      revision.toInt = n := by
  induction h generalizing n record with
  | nil => cases hn
  | first hfresh =>
    cases n with
    | zero =>
      cases hn
      exact ⟨_, OrderedMap.get?_insert_self _ _ _, rfl⟩
    | succ n => cases hn
  | @next earlier last after changes _ hlast hchanges happly ih =>
    rw [List.getElem?_append] at hn
    split at hn
    · exact ih hn
    · rename_i hle
      have hzero : n - earlier.length = 0 := by
        by_contra hpositive
        rw [List.getElem?_eq_none (by simp; omega)] at hn
        cases hn
      rw [hzero] at hn
      cases hn
      rw [List.getLast?_eq_getElem?] at hlast
      obtain ⟨before, hbefore, hcount⟩ := ih hlast
      have hrevision : last.revision? = some before := by
        simp [Record.revision?, hbefore, Value.asInt?]
      obtain ⟨next, hnext, hsucc⟩ := hchanges.revision? happly hrevision
      have hpositive : earlier ≠ [] := by
        rintro rfl
        cases hlast
      have hlength := List.length_pos_iff.mpr hpositive
      exact ⟨next, hnext, by omega⟩

theorem eq_of_revision (h : Lineage schema versions) {a b : Record} {revision : Int64}
    (ha : a ∈ versions) (hb : b ∈ versions) (hra : a.revision? = some revision)
    (hrb : b.revision? = some revision) : a = b := by
  obtain ⟨m, hm⟩ := List.mem_iff_getElem?.mp ha
  obtain ⟨n, hn⟩ := List.mem_iff_getElem?.mp hb
  obtain ⟨ra, hga, hma⟩ := h.revision hm
  obtain ⟨rb, hgb, hnb⟩ := h.revision hn
  simp only [Record.revision?, hga, hgb, Option.bind_some, Value.asInt?, Option.some.injEq]
    at hra hrb
  rw [hra] at hma
  rw [hrb] at hnb
  have heq : m = n := by omega
  rw [heq, hn] at hm
  exact (Option.some.inj hm).symm

theorem storable (h : Lineage schema versions) : ∀ record ∈ versions, record.Storable := by
  induction h with
  | nil => simp
  | first hfresh =>
    intro record hrecord
    rw [List.mem_singleton.mp hrecord]
    exact hfresh.storable.insert _ (Nat.zero_le _)
  | @next earlier last after changes h hlast hchanges happly ih =>
    intro record hrecord
    rcases List.mem_append.mp hrecord with hrecord | hrecord
    · exact ih record hrecord
    · rw [List.mem_singleton.mp hrecord]
      rw [List.getLast?_eq_getElem?] at hlast
      obtain ⟨revision, hget, _⟩ := h.revision hlast
      have hrevision : last.revision? = some revision := by
        simp [Record.revision?, hget, Value.asInt?]
      exact hchanges.storable happly hrevision (ih last (List.mem_of_getElem? hlast))

-- What a kind of record does not vary in stays as it was created.
theorem kept (h : Lineage schema versions) {first record : Record}
    (hfirst : versions.head? = some first) (hrecord : record ∈ versions) {name : String}
    (hname : name ≠ Record.revisionAttribute) (hvaries : ¬schema.Varies name) :
    record.get? name = first.get? name := by
  induction h generalizing record with
  | nil => cases hfirst
  | first =>
    cases hfirst
    rw [List.mem_singleton.mp hrecord]
  | @next earlier last after changes h hlast hchanges happly ih =>
    have hmem := List.mem_of_getLast? hlast
    have hne : earlier ≠ [] := List.ne_nil_of_mem hmem
    rw [List.head?_append_of_ne_nil _ hne] at hfirst
    rcases List.mem_append.mp hrecord with hrecord | hrecord
    · exact ih hfirst hrecord
    · rw [List.mem_singleton.mp hrecord, hchanges.get?_of_not_allowed happly hname hvaries]
      exact ih hfirst hmem

theorem draft (h : Lineage schema versions) {first : Record}
    (hfirst : versions.head? = some first) :
    ∃ fresh, schema.Drafts fresh ∧
      first = fresh.insert Record.revisionAttribute (.int Schema.baseRevision) := by
  induction h with
  | nil => cases hfirst
  | first hfresh =>
    cases hfirst
    exact ⟨_, hfresh, rfl⟩
  | next _ hlast _ _ ih =>
    have hne := List.ne_nil_of_mem (List.mem_of_getLast? hlast)
    rw [List.head?_append_of_ne_nil _ hne] at hfirst
    exact ih hfirst

-- Every version has the attribute that keeps others from being created.
theorem unique (h : Lineage schema versions) (hschema : schema ∈ Schema.all) :
    ∀ record ∈ versions, record.contains schema.unique = true := by
  intro record hrecord
  obtain ⟨first, hfirst⟩ : ∃ first, versions.head? = some first := by
    cases versions with
    | nil => cases hrecord
    | cons first rest => exact ⟨first, rfl⟩
  have hne := Schema.unique_ne_revision hschema
  obtain ⟨fresh, hfresh, rfl⟩ := h.draft hfirst
  rw [OrderedMap.contains, h.kept hfirst hrecord hne (Schema.not_varies_unique hschema),
    OrderedMap.get?_insert_of_ne _ _ hne]
  exact hfresh.unique

end Lineage

end LightningRecords

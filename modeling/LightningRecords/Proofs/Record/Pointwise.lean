import LightningRecords.Proofs.Record.Changes
import LightningRecords.Proofs.Value.Order

namespace LightningRecords

-- Why a change does not fit an attribute of a record, if it does not.
def Change.misfit? (record : Record) (e : String × Change) : Option ChangeError :=
  match e.2.outcome e.1 (record.get? e.1) with
  | .ok _ => none
  | .error error => some error

namespace Changes

-- Why the first change that does not fit does not, each one held against the record
-- as it is before any of them.
def misfit? (changes : Changes) (record : Record) : Option ChangeError :=
  changes.toList.findSome? (Change.misfit? record)

-- What changes that fit make of one attribute.
def becomes (changes : Changes) (record : Record) (name : String) : Option Value :=
  match changes.get? name with
  | some change => ((change.outcome name (record.get? name)).toOption).join
  | none => record.get? name

-- The record of what every attribute becomes.
def pointwise (changes : Changes) (record : Record) : Record :=
  OrderedMap.ofList ((record.keys ++ changes.keys).filterMap fun name =>
    (changes.becomes record name).map fun value => (name, value))

theorem get?_pointwise (changes : Changes) (record : Record) (name : String) :
    (changes.pointwise record).get? name = changes.becomes record name := by
  apply OrderedMap.get?_ofList_filterMap
  intro hnot
  rw [List.mem_append, not_or] at hnot
  have hrecord : record.get? name = none := by
    cases hget : record.get? name with
    | none => rfl
    | some value =>
      have hmem := (OrderedMap.mem_toList_iff record name value).mpr hget
      exact absurd (List.mem_map_of_mem (f := Prod.fst) hmem) hnot.1
  have hchange : changes.get? name = none := by
    cases hget : changes.get? name with
    | none => rfl
    | some change =>
      have hmem := (OrderedMap.mem_toList_iff changes name change).mpr hget
      exact absurd (List.mem_map_of_mem (f := Prod.fst) hmem) hnot.2
  rw [becomes, hchange]
  exact hrecord

theorem applyTo_of_misfit (e : String × Change) (record : Record) :
    match Change.misfit? record e with
    | some error => e.2.applyTo e.1 record = .error error
    | none => ∃ next, e.2.applyTo e.1 record = .ok next := by
  simp only [Change.misfit?, Change.applyTo]
  cases e.2.outcome e.1 (record.get? e.1) with
  | error error => rfl
  | ok outcome => cases outcome <;> exact ⟨_, rfl⟩

-- A change finds its attribute as it was at the beginning, because no earlier one
-- is for the same attribute.
theorem foldlM_applyTo_of_misfit {entries : List (String × Change)}
    (hn : (entries.map Prod.fst).Nodup) (record : Record) {start : Record}
    (hstart : ∀ e ∈ entries, start.get? e.1 = record.get? e.1) :
    match entries.findSome? (Change.misfit? record) with
    | some error => entries.foldlM (fun r e => e.2.applyTo e.1 r) start = .error error
    | none => ∃ result, entries.foldlM (fun r e => e.2.applyTo e.1 r) start = .ok result := by
  induction entries generalizing start with
  | nil => exact ⟨start, rfl⟩
  | cons e rest ih =>
    obtain ⟨hnot, hrest⟩ := List.nodup_cons.mp hn
    have hsame : Change.misfit? record e = Change.misfit? start e := by
      simp only [Change.misfit?, hstart e (by simp)]
    have hfirst := applyTo_of_misfit e start
    rw [← hsame] at hfirst
    rw [List.findSome?_cons, List.foldlM_cons]
    cases hmisfit : Change.misfit? record e with
    | some error =>
      rw [hmisfit] at hfirst
      simp only at hfirst ⊢
      rw [hfirst]
      rfl
    | none =>
      rw [hmisfit] at hfirst
      obtain ⟨next, hnext⟩ := hfirst
      have hothers := (Change.applyTo_eq_ok hnext).2
      rw [hnext]
      apply ih hrest
      intro d hd
      have hne : d.1 ≠ e.1 := fun heq => hnot (heq ▸ List.mem_map_of_mem hd)
      rw [hothers d.1 hne]
      exact hstart d (List.mem_cons_of_mem e hd)

-- Applying changes one after another is applying each to the original record.
theorem apply_eq (changes : Changes) (record : Record) :
    changes.apply record =
      match changes.misfit? record with
      | some error => .error error
      | none => .ok (changes.pointwise record) := by
  have hfold := foldlM_applyTo_of_misfit changes.keys_nodup record fun _ _ => rfl
  change match changes.misfit? record with
    | some error => changes.apply record = .error error
    | none => ∃ result, changes.apply record = .ok result at hfold
  cases hmisfit : changes.misfit? record with
  | some error =>
    rw [hmisfit] at hfold
    exact hfold
  | none =>
    rw [hmisfit] at hfold
    obtain ⟨result, hresult⟩ := hfold
    rw [hresult]
    congr 1
    apply OrderedMap.ext_get?
    intro name
    rw [get?_pointwise, becomes]
    cases hchange : changes.get? name with
    | none => exact get?_of_apply_of_none hresult hchange
    | some change =>
      have houtcome := outcome_of_apply hresult hchange
      simp only [houtcome, Except.toOption, Option.join_some]

end Changes

end LightningRecords

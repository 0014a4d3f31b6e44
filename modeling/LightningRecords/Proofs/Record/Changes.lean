import LightningRecords.Changes
import LightningRecords.Proofs.Except
import LightningRecords.Proofs.Record.RoundTrip

namespace LightningRecords

theorem Record.get?_of_revision? {record : Record} {revision : Int64}
    (h : record.revision? = some revision) :
    record.get? revisionAttribute = some (.int revision) := by
  obtain ⟨value, hvalue, hint⟩ := Option.bind_eq_some_iff.mp h
  cases value with
  | int n =>
    cases hint
    exact hvalue
  | _ => cases hint

theorem Change.applyTo_eq_ok {name : String} {change : Change} {record result : Record}
    (h : change.applyTo name record = .ok result) :
    change.outcome name (record.get? name) = .ok (result.get? name) ∧
      ∀ other, other ≠ name → result.get? other = record.get? other := by
  obtain ⟨outcome, houtcome, h⟩ := bind_eq_ok_iff.mp h
  rw [houtcome]
  cases outcome with
  | none =>
    cases h
    constructor
    · simp
    · intro other hne
      simp [hne]
  | some value =>
    cases h
    constructor
    · simp
    · intro other hne
      simp [hne]

namespace Changes

theorem foldlM_applyTo {entries : List (String × Change)} (hn : (entries.map Prod.fst).Nodup)
    {record result : Record}
    (h : entries.foldlM (fun record e => e.2.applyTo e.1 record) record = .ok result) :
    (∀ e ∈ entries, e.2.outcome e.1 (record.get? e.1) = .ok (result.get? e.1)) ∧
      ∀ name, (∀ e ∈ entries, e.1 ≠ name) → result.get? name = record.get? name := by
  induction entries generalizing record with
  | nil =>
    cases h
    simp
  | cons e rest ih =>
    obtain ⟨hnot, hrest⟩ := List.nodup_cons.mp hn
    rw [List.foldlM_cons] at h
    obtain ⟨next, hnext, h⟩ := bind_eq_ok_iff.mp h
    obtain ⟨hfirst, hothers⟩ := Change.applyTo_eq_ok hnext
    obtain ⟨hlater, hframe⟩ := ih hrest h
    have hnotLater : ∀ d ∈ rest, d.1 ≠ e.1 := by
      intro d hd heq
      exact hnot (heq ▸ List.mem_map_of_mem hd)
    constructor
    · intro d hd
      rcases List.mem_cons.mp hd with rfl | hd
      · rw [hframe d.1 hnotLater]
        exact hfirst
      · rw [← hothers d.1 (hnotLater d hd)]
        exact hlater d hd
    · intro name hname
      rw [hframe name fun d hd => hname d (List.mem_cons_of_mem e hd)]
      exact hothers name (Ne.symm (hname e (by simp)))

variable {changes : Changes} {record result : Record}

theorem outcome_of_apply (h : changes.apply record = .ok result) {name : String} {change : Change}
    (hchange : changes.get? name = some change) :
    change.outcome name (record.get? name) = .ok (result.get? name) :=
  (foldlM_applyTo changes.keys_nodup h).1 _ ((changes.mem_toList_iff name change).mpr hchange)

theorem get?_of_apply_of_none (h : changes.apply record = .ok result) {name : String}
    (hnone : changes.get? name = none) : result.get? name = record.get? name := by
  refine (foldlM_applyTo changes.keys_nodup h).2 name ?_
  rintro e he rfl
  rw [OrderedMap.get?_of_mem he] at hnone
  cases hnone

end Changes

-- Whole numbers of 64 bits are summed exactly, or have no sum.
theorem checkedAdd?_eq_some_iff {a b sum : Int64} :
    checkedAdd? a b = some sum ↔ sum.toInt = a.toInt + b.toInt := by
  constructor
  · intro h
    simp only [checkedAdd?] at h
    split at h
    · rename_i hrange
      cases h
      have hlow : Int64.minValue.toInt = -2 ^ 63 := by decide
      have hhigh : Int64.maxValue.toInt = 2 ^ 63 - 1 := by decide
      exact Int64.toInt_ofInt_of_le (by omega) (by omega)
    · cases h
  · intro hsum
    have hlow := Int64.minValue_le_toInt sum
    have hhigh := Int64.toInt_le sum
    simp only [checkedAdd?, ← hsum, hlow, hhigh, and_self, if_true, Int64.ofInt_toInt]

theorem checkedAdd?_eq_none_iff {a b : Int64} :
    checkedAdd? a b = none ↔ a.toInt + b.toInt < -2 ^ 63 ∨ 2 ^ 63 ≤ a.toInt + b.toInt := by
  have hlow : Int64.minValue.toInt = -2 ^ 63 := by decide
  have hhigh : Int64.maxValue.toInt = 2 ^ 63 - 1 := by decide
  simp only [checkedAdd?, ite_eq_right_iff, reduceCtorEq, imp_false]
  omega

namespace Changes

-- Changes that count an update and otherwise set or remove allowed attributes.
structure Revises (changes : Changes) (allowed : String → Prop) : Prop where
  counts : changes.get? Record.revisionAttribute = some (.add (.int 1))
  assigns : ∀ name change, changes.get? name = some change → name ≠ Record.revisionAttribute →
    allowed name ∧
      (change = .remove ∨ ∃ value, change = .set value ∧ value.depth ≤ Record.maxValueDepth)

variable {changes : Changes} {allowed : String → Prop} {record result : Record}

theorem Revises.mono {wider : String → Prop} (hr : changes.Revises allowed)
    (h : ∀ name, allowed name → wider name) : changes.Revises wider where
  counts := hr.counts
  assigns := fun name change hchange hname =>
    (hr.assigns name change hchange hname).imp_left (h name)

theorem Revises.revision? (hr : changes.Revises allowed) (h : changes.apply record = .ok result)
    {revision : Int64} (hrevision : record.revision? = some revision) :
    ∃ next, result.get? Record.revisionAttribute = some (.int next) ∧
      next.toInt = revision.toInt + 1 := by
  have houtcome := outcome_of_apply h hr.counts
  obtain ⟨value, hvalue, hint⟩ := Option.bind_eq_some_iff.mp hrevision
  cases value with
  | int n =>
    cases hint
    simp only [hvalue, Change.outcome, Value.add] at houtcome
    cases hsum : checkedAdd? revision 1 with
    | none =>
      rw [hsum] at houtcome
      cases houtcome
    | some next =>
      rw [hsum] at houtcome
      refine ⟨next, ?_, checkedAdd?_eq_some_iff.mp hsum⟩
      exact (Except.ok.inj houtcome).symm
  | _ => cases hint

theorem Revises.get?_of_not_allowed (hr : changes.Revises allowed)
    (h : changes.apply record = .ok result) {name : String}
    (hname : name ≠ Record.revisionAttribute) (hnot : ¬allowed name) :
    result.get? name = record.get? name := by
  cases hchange : changes.get? name with
  | none => exact get?_of_apply_of_none h hchange
  | some change => exact absurd (hr.assigns name change hchange hname).1 hnot

theorem Revises.storable (hr : changes.Revises allowed) (h : changes.apply record = .ok result)
    {revision : Int64} (hrevision : record.revision? = some revision) (hs : record.Storable) :
    result.Storable := by
  intro name value hget
  by_cases hname : name = Record.revisionAttribute
  · obtain ⟨next, hnext, _⟩ := hr.revision? h hrevision
    rw [hname, hnext] at hget
    cases hget
    exact Nat.zero_le _
  cases hchange : changes.get? name with
  | none =>
    rw [get?_of_apply_of_none h hchange] at hget
    exact hs name value hget
  | some change =>
    have houtcome := outcome_of_apply h hchange
    rw [hget] at houtcome
    rcases (hr.assigns name change hchange hname).2 with rfl | ⟨assigned, rfl, hdepth⟩
    · cases houtcome
    · cases houtcome
      exact hdepth

end Changes

end LightningRecords

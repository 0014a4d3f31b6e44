import LightningRecords.Difference
import LightningRecords.Proofs.Record.Changes
import LightningRecords.Proofs.Value.Order

namespace LightningRecords

theorem Record.get?_project (record : Record) (attributes : List String) (name : String) :
    (record.project attributes).get? name =
      if name ∈ attributes then record.get? name else none := by
  rw [project, OrderedMap.get?_filter]
  cases record.get? name <;> simp [Option.filter]

namespace Difference

variable {stored fresh : Record} {difference : Difference}

-- Equal values, or lists of the same members. A missing list is an empty one.
def Alike (before after : Option Value) : Prop :=
  before = after ∨ ∃ as bs, before.getD (.list []) = .list as ∧ after.getD (.list []) = .list bs ∧
    ∀ v, v ∈ as ↔ v ∈ bs

theorem same_iff (before after : Option Value) : same before after = true ↔ Alike before after := by
  cases before with
  | none =>
    cases after with
    | none => simp [same, Alike]
    | some value =>
      cases value <;> simp [same, Alike]
      rename_i items
      cases items with
      | nil => simp
      | cons v rest => exact iff_of_false (by simp) fun h => h v (by simp)
  | some value =>
    cases after with
    | none =>
      cases value <;> simp [same, Alike]
      rename_i items
      cases items with
      | nil => simp
      | cons v rest => exact iff_of_false (by simp) fun h => h v (by simp)
    | some other => simp [same, Alike, Value.setEq_iff]

theorem exists_of_differs {name : String} (h : differs stored fresh name = true) :
    (stored.get? name).isSome ∨ (fresh.get? name).isSome := by
  by_contra hneither
  rw [not_or, Option.not_isSome_iff_eq_none, Option.not_isSome_iff_eq_none] at hneither
  simp [differs, hneither.1, hneither.2, same] at h

theorem get?_changesOf (previous updated : Record) (name : String) :
    (changesOf previous updated).get? name =
      ((updated.get? name).map Change.set).or
        ((previous.get? name).map fun _ => Change.remove) := by
  have hremovals : ((previous.keys.foldl (fun changes name => changes.insert name Change.remove)
      (∅ : Changes)).get? name) = (previous.get? name).map fun _ => Change.remove := by
    rw [OrderedMap.keys, List.foldl_map]
    have h := OrderedMap.get?_foldl_insert_toList previous (fun _ _ => Change.remove)
      (∅ : Changes) name
    rwa [OrderedMap.get?_empty, Option.or_none] at h
  rw [changesOf, ← hremovals]
  exact OrderedMap.get?_foldl_insert_toList updated (fun _ => Change.set) _ name

theorem between_eq_none_iff :
    between stored fresh = none ↔ ∀ name, differs stored fresh name = false := by
  simp only [between]
  split
  · rename_i hempty
    obtain ⟨hprevious, hupdated⟩ := Bool.and_eq_true_iff.mp hempty
    rw [OrderedMap.isEmpty_iff] at hprevious hupdated
    refine ⟨fun _ name => ?_, fun _ => rfl⟩
    by_contra hdiffers
    rw [Bool.not_eq_false] at hdiffers
    have hs := hprevious name
    have hf := hupdated name
    rw [OrderedMap.get?_filter] at hs hf
    rcases exists_of_differs hdiffers with hsome | hsome
    · obtain ⟨value, hvalue⟩ := Option.isSome_iff_exists.mp hsome
      simp [hvalue, hdiffers, Option.filter] at hs
    · obtain ⟨value, hvalue⟩ := Option.isSome_iff_exists.mp hsome
      simp [hvalue, hdiffers, Option.filter] at hf
  · rename_i hempty
    refine ⟨by simp, fun hsame => ?_⟩
    refine absurd (Bool.and_eq_true_iff.mpr ⟨?_, ?_⟩) hempty
    · rw [OrderedMap.isEmpty_iff]
      intro name
      rw [OrderedMap.get?_filter, hsame name]
      cases stored.get? name <;> rfl
    · rw [OrderedMap.isEmpty_iff]
      intro name
      rw [OrderedMap.get?_filter, hsame name]
      cases fresh.get? name <;> rfl

theorem get?_previous (h : between stored fresh = some difference) (name : String) :
    difference.previous.get? name =
      if differs stored fresh name then stored.get? name else none := by
  simp only [between] at h
  split at h
  · cases h
  · cases h
    rw [OrderedMap.get?_filter]
    cases stored.get? name <;> simp [Option.filter]

theorem get?_updated (h : between stored fresh = some difference) (name : String) :
    difference.updated.get? name =
      if differs stored fresh name then fresh.get? name else none := by
  simp only [between] at h
  split at h
  · cases h
  · cases h
    rw [OrderedMap.get?_filter]
    cases fresh.get? name <;> simp [Option.filter]

theorem get?_changes (h : between stored fresh = some difference) (name : String) :
    difference.changes.get? name =
      if name = Record.revisionAttribute then some (.add (.int 1))
      else ((difference.updated.get? name).map Change.set).or
        ((difference.previous.get? name).map fun _ => Change.remove) := by
  simp only [between] at h
  split at h
  · cases h
  · cases h
    simp only [Changes.bumpRevision, OrderedMap.get?_insert, Std.LawfulEqCmp.compare_eq_iff_eq]
    split
    · rfl
    · exact get?_changesOf _ _ name

theorem revises (h : between stored fresh = some difference) (hfresh : fresh.Storable)
    {allowed : String → Prop} (hallowed : ∀ name, differs stored fresh name = true → allowed name) :
    difference.changes.Revises allowed where
  counts := by
    rw [get?_changes h, if_pos rfl]
  assigns := by
    intro name change hchange hname
    rw [get?_changes h, if_neg hname, get?_updated h, get?_previous h] at hchange
    cases hdiffers : differs stored fresh name with
    | false => simp [hdiffers] at hchange
    | true =>
      refine ⟨hallowed name hdiffers, ?_⟩
      simp only [hdiffers, if_true] at hchange
      cases hvalue : fresh.get? name with
      | some value =>
        rw [hvalue] at hchange
        cases hchange
        exact .inr ⟨value, rfl, hfresh name value hvalue⟩
      | none =>
        rw [hvalue] at hchange
        cases hbefore : stored.get? name with
        | some value =>
          rw [hbefore] at hchange
          cases hchange
          exact .inl rfl
        | none =>
          rw [hbefore] at hchange
          cases hchange

end Difference

end LightningRecords

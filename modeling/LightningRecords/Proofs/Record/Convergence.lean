import LightningRecords.Proofs.Difference
import LightningRecords.Proofs.Record.Pointwise

namespace LightningRecords

open Difference (Alike)

namespace Record

-- The revision has room for one more, or is still to begin.
def Countable (record : Record) : Prop :=
  record.get? revisionAttribute = none ∨
    ∃ revision : Int64, record.get? revisionAttribute = some (.int revision) ∧
      revision.toInt < Int64.maxValue.toInt

-- A revision further, or at the first one.
def Counted (before after : Record) : Prop :=
  before.get? revisionAttribute = none ∧ after.get? revisionAttribute = some (.int 1) ∨
    ∃ revision next : Int64, before.get? revisionAttribute = some (.int revision) ∧
      after.get? revisionAttribute = some (.int next) ∧ next.toInt = revision.toInt + 1

theorem get?_without (record : Record) {name other : String} (h : other ≠ name) :
    (record.without name).get? other = record.get? other := by
  simp [without, h]

theorem get?_without_self (record : Record) (name : String) :
    (record.without name).get? name = none := by
  simp [without]

end Record

theorem checkedAdd?_one {n : Int64} (h : n.toInt < Int64.maxValue.toInt) :
    ∃ next, checkedAdd? n 1 = some next ∧ next.toInt = n.toInt + 1 := by
  have hone : (1 : Int64).toInt = 1 := by decide
  have hhigh : Int64.maxValue.toInt = 2 ^ 63 - 1 := by decide
  have hlow := Int64.le_toInt n
  cases hsum : checkedAdd? n 1 with
  | none =>
    rcases checkedAdd?_eq_none_iff.mp hsum with hless | hmore <;> omega
  | some next => exact ⟨next, rfl, by rw [checkedAdd?_eq_some_iff.mp hsum, hone]⟩

namespace Changes

-- Changes that each fit what is there can be applied.
theorem apply_of_fits {changes : Changes} {record : Record}
    (h : ∀ name change, changes.get? name = some change →
      ∃ value, change.outcome name (record.get? name) = .ok value) :
    changes.apply record = .ok (changes.pointwise record) := by
  have hnone : changes.misfit? record = none := by
    apply List.findSome?_eq_none_iff.mpr
    intro e he
    obtain ⟨value, hvalue⟩ := h e.1 e.2 (OrderedMap.get?_of_mem he)
    simp only [Change.misfit?, hvalue]
  rw [apply_eq, hnone]

end Changes

-- The change that leaves a value, or none.
def Change.toward : Option Value → Change
  | some value => .set value
  | none => .remove

@[simp] theorem Change.outcome_toward (name : String) (current fresh : Option Value) :
    (toward fresh).outcome name current = .ok fresh := by
  cases fresh <;> rfl

namespace Difference

variable {stored fresh after : Record} {difference : Difference}

-- A difference has both values of the attributes that are not alike, one change for each
-- of them, and one for the revision; and it has nothing else.
structure Exact (stored fresh : Record) (difference : Difference) : Prop where
  previous : ∀ name value, difference.previous.get? name = some value ↔
    ¬Alike (stored.get? name) (fresh.get? name) ∧ stored.get? name = some value
  updated : ∀ name value, difference.updated.get? name = some value ↔
    ¬Alike (stored.get? name) (fresh.get? name) ∧ fresh.get? name = some value
  revision : difference.changes.get? Record.revisionAttribute = some (.add (.int 1))
  changes : ∀ name change, name ≠ Record.revisionAttribute →
    (difference.changes.get? name = some change ↔
      ¬Alike (stored.get? name) (fresh.get? name) ∧ change = .toward (fresh.get? name))

-- The stored record with what was not alike brought in line with the fresh one.
structure Converges (stored fresh after : Record) : Prop where
  revision : stored.Counted after
  unlike : ∀ name, name ≠ Record.revisionAttribute →
    ¬Alike (stored.get? name) (fresh.get? name) → after.get? name = fresh.get? name
  alike : ∀ name, name ≠ Record.revisionAttribute →
    Alike (stored.get? name) (fresh.get? name) → after.get? name = stored.get? name
  settled : between (after.without Record.revisionAttribute)
    (fresh.without Record.revisionAttribute) = none

theorem differs_iff (stored fresh : Record) (name : String) :
    differs stored fresh name = true ↔ ¬Alike (stored.get? name) (fresh.get? name) := by
  rw [differs, Bool.not_eq_true', ← Bool.not_eq_true, same_iff]

theorem between_eq_none_iff_alike :
    between stored fresh = none ↔ ∀ name, Alike (stored.get? name) (fresh.get? name) := by
  rw [between_eq_none_iff]
  refine forall_congr' fun name => ?_
  rw [← Bool.not_eq_true, differs_iff, not_not]

theorem exact_of_between (h : between stored fresh = some difference) :
    difference.Exact stored fresh where
  previous := by
    intro name value
    rw [get?_previous h, ← differs_iff]
    cases differs stored fresh name <;> simp
  updated := by
    intro name value
    rw [get?_updated h, ← differs_iff]
    cases differs stored fresh name <;> simp
  revision := by
    rw [get?_changes h, if_pos rfl]
  changes := by
    intro name change hname
    rw [get?_changes h, if_neg hname, get?_updated h, get?_previous h, ← differs_iff]
    cases hdiffers : differs stored fresh name with
    | false => simp
    | true =>
      have hsome := exists_of_differs hdiffers
      cases hfresh : fresh.get? name with
      | some value => simp [Change.toward, eq_comm]
      | none =>
        -- What the fresh record lacks, the stored one has.
        obtain ⟨value, hvalue⟩ := Option.isSome_iff_exists.mp (hsome.resolve_right (by simp [hfresh]))
        simp [Change.toward, hvalue, eq_comm]

-- A change to the revision counts on, and every other one sets or removes.
theorem Exact.fits (h : difference.Exact stored fresh) (hcountable : stored.Countable)
    (name : String) (change : Change) (hchange : difference.changes.get? name = some change) :
    ∃ value, change.outcome name (stored.get? name) = .ok value := by
  by_cases hname : name = Record.revisionAttribute
  · subst hname
    rw [h.revision] at hchange
    cases hchange
    rcases hcountable with hnone | ⟨revision, hrevision, hless⟩
    · exact ⟨some (.int 1), by rw [hnone, Change.outcome]⟩
    · obtain ⟨next, hnext, _⟩ := checkedAdd?_one hless
      exact ⟨some (.int next), by rw [hrevision]; simp [Change.outcome, Value.add, hnext, Except.map]⟩
  · obtain ⟨_, rfl⟩ := (h.changes name change hname).mp hchange
    exact ⟨fresh.get? name, Change.outcome_toward name _ _⟩

theorem Exact.counted (h : difference.Exact stored fresh) (hcountable : stored.Countable)
    (happly : difference.changes.apply stored = .ok after) : stored.Counted after := by
  have houtcome := Changes.outcome_of_apply happly h.revision
  rcases hcountable with hnone | ⟨revision, hrevision, hless⟩
  · rw [hnone] at houtcome
    exact .inl ⟨hnone, (Except.ok.inj houtcome).symm⟩
  · obtain ⟨next, hnext, hcount⟩ := checkedAdd?_one hless
    rw [hrevision] at houtcome
    simp only [Change.outcome, Value.add, hnext, Except.map] at houtcome
    exact .inr ⟨revision, next, hrevision, (Except.ok.inj houtcome).symm, hcount⟩

theorem Exact.get?_unlike (h : difference.Exact stored fresh)
    (happly : difference.changes.apply stored = .ok after) {name : String}
    (hname : name ≠ Record.revisionAttribute)
    (hunlike : ¬Alike (stored.get? name) (fresh.get? name)) :
    after.get? name = fresh.get? name := by
  have hchange := (h.changes name _ hname).mpr ⟨hunlike, rfl⟩
  have houtcome := Changes.outcome_of_apply happly hchange
  rw [Change.outcome_toward] at houtcome
  exact (Except.ok.inj houtcome).symm

theorem Exact.get?_alike (h : difference.Exact stored fresh)
    (happly : difference.changes.apply stored = .ok after) {name : String}
    (hname : name ≠ Record.revisionAttribute)
    (halike : Alike (stored.get? name) (fresh.get? name)) :
    after.get? name = stored.get? name := by
  have hnone : difference.changes.get? name = none := by
    apply Option.eq_none_iff_forall_ne_some.mpr
    intro change hchange
    exact ((h.changes name change hname).mp hchange).1 halike
  exact Changes.get?_of_apply_of_none happly hnone

-- What is like the fresh record was so before, or has become the same.
theorem Exact.converges (h : difference.Exact stored fresh) (hcountable : stored.Countable)
    (happly : difference.changes.apply stored = .ok after) : Converges stored fresh after where
  revision := h.counted hcountable happly
  unlike := fun _ hname hunlike => h.get?_unlike happly hname hunlike
  alike := fun _ hname halike => h.get?_alike happly hname halike
  settled := by
    rw [between_eq_none_iff_alike]
    intro name
    by_cases hname : name = Record.revisionAttribute
    · subst hname
      rw [Record.get?_without_self, Record.get?_without_self]
      exact .inl rfl
    · rw [Record.get?_without _ hname, Record.get?_without _ hname]
      by_cases halike : Alike (stored.get? name) (fresh.get? name)
      · rw [h.get?_alike happly hname halike]
        exact halike
      · rw [h.get?_unlike happly hname halike]
        exact .inl rfl

-- There is no difference between records that are alike. Between others it is exact, and if
-- the stored one can be counted on, its changes can be made and leave no difference.
theorem between_exact (stored fresh : Record) :
    (between stored fresh = none ↔ ∀ name, Alike (stored.get? name) (fresh.get? name)) ∧
    ∀ difference, between stored fresh = some difference →
      difference.Exact stored fresh ∧
      (stored.Countable → ∃ after, difference.changes.apply stored = .ok after ∧
        Converges stored fresh after) := by
  refine ⟨between_eq_none_iff_alike, fun difference hdifference => ?_⟩
  have hexact := exact_of_between hdifference
  refine ⟨hexact, fun hcountable => ?_⟩
  have happly := Changes.apply_of_fits (hexact.fits hcountable)
  exact ⟨_, happly, hexact.converges hcountable happly⟩

-- A list in another order, a missing list, an attribute that is gone, one that is new, and
-- one that is not the same; the fresh revision is not taken over.
theorem between_exact_mixed :
    let stored : Record := OrderedMap.ofList [("_rev", .int 3), ("alias", .text "a"),
      ("flag", .bool true), ("sockets", .list [.text "x", .text "y"])]
    let fresh : Record := OrderedMap.ofList [("_rev", .int 8), ("alias", .text "b"),
      ("features", .list []), ("height", .int 7), ("sockets", .list [.text "y", .text "x"])]
    let after : Record := OrderedMap.ofList [("_rev", .int 4), ("alias", .text "b"),
      ("height", .int 7), ("sockets", .list [.text "x", .text "y"])]
    ∃ difference, between stored fresh = some difference ∧ difference.Exact stored fresh ∧
      stored.Countable ∧ difference.changes.apply stored = .ok after ∧
      Converges stored fresh after := by
  intro stored fresh after
  obtain ⟨difference, hdifference⟩ : ∃ difference, between stored fresh = some difference :=
    Option.isSome_iff_exists.mp (by decide +kernel)
  have happly : (between stored fresh).map (fun d => d.changes.apply stored) = some (.ok after) := by
    decide +kernel
  have hcountable : stored.Countable := .inr ⟨3, by decide +kernel, by decide⟩
  obtain ⟨hexact, hconverges⟩ := (between_exact stored fresh).2 difference hdifference
  obtain ⟨result, hresult, hconverged⟩ := hconverges hcountable
  rw [hdifference, Option.map_some, hresult] at happly
  cases happly
  exact ⟨difference, hdifference, hexact, hcountable, hresult, hconverged⟩

end Difference

end LightningRecords

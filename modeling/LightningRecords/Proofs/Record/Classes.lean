import LightningRecords.Proofs.Record.Convergence
import Mathlib.Data.Set.Basic

namespace LightningRecords

-- A comparison that puts everything in one line, each thing at a place of its own.
structure LawfulOrder {α : Type} (compare : α → α → Ordering) : Prop where
  antisymm : ∀ a b, (compare a b).isLE → (compare b a).isLE → a = b
  trans : ∀ a b c, (compare a b).isLE → (compare b c).isLE → (compare a c).isLE
  total : ∀ a b, (compare a b).isLE ∨ (compare b a).isLE
  eq_iff : ∀ a b, compare a b = .eq ↔ a = b
  swap : ∀ a b, compare b a = (compare a b).swap

namespace Value

theorem isLE_total (a b : Value) : (a.compare b).isLE ∨ (b.compare a).isLE := by
  rw [compare_swap b a]
  cases a.compare b <;> simp

theorem lawfulOrder : LawfulOrder compare where
  antisymm := fun _ _ => eq_of_isLE_of_isLE
  trans := isLE_trans
  total := isLE_total
  eq_iff := fun _ _ => Std.LawfulEqCmp.compare_eq_iff_eq
  swap := fun a b => compare_swap b a

theorem setEq_list_iff (as bs : List Value) :
    (Value.list as).setEq (.list bs) = true ↔ (∀ v ∈ as, v ∈ bs) ∧ ∀ v ∈ bs, v ∈ as := by
  rw [setEq, decide_eq_true_iff, members_eq_iff]
  exact ⟨fun h => ⟨fun v => (h v).mp, fun v => (h v).mpr⟩, fun h v => ⟨h.1 v, h.2 v⟩⟩

-- What a value counts for when lists are compared as sets: a list counts for its members,
-- which are taken as they are.
def normal : Value → Value
  | .list items => .list (members items)
  | v => v

theorem setEq_iff_normal (a b : Value) : a.setEq b = true ↔ a.normal = b.normal := by
  cases a <;> cases b <;> simp [setEq, normal]

-- Being the same set is being equal in what one counts for.
theorem setEq_equivalence : Equivalence fun a b : Value => a.setEq b = true := by
  simp only [setEq_iff_normal]
  exact eq_equivalence.comap normal

theorem setEq_comm (a b : Value) : a.setEq b = b.setEq a := by
  rw [Bool.eq_iff_iff, setEq_iff_normal, setEq_iff_normal, eq_comm]

-- Only the empty list is the same set as the empty list.
theorem setEq_nil (value : Value) : value.setEq (.list []) = decide (value = .list []) := by
  cases value with
  | list items =>
    rw [Bool.eq_iff_iff, setEq_list_iff]
    simp [List.eq_nil_iff_forall_not_mem]
  | _ => rfl

end Value

namespace Difference

variable {stored fresh stored' fresh' : Record} {before after before' after' : Option Value}
  {name : String}

theorem same_eq_setEq (before after : Option Value) :
    same before after = (before.getD (.list [])).setEq (after.getD (.list [])) := by
  cases before with
  | none =>
    cases after with
    | none => rfl
    | some value =>
      rw [Option.getD_none, Option.getD_some, Value.setEq_comm, Value.setEq_nil]
      rcases value with n | s | b | flag | (_ | ⟨v, rest⟩) <;> simp [same]
  | some value =>
    cases after with
    | none =>
      rw [Option.getD_none, Option.getD_some, Value.setEq_nil]
      rcases value with n | s | b | flag | (_ | ⟨v, rest⟩) <;> simp [same]
    | some other => rfl

-- A missing value counts for the empty list.
def normal (value : Option Value) : Value := (value.getD (.list [])).normal

theorem same_iff_normal (before after : Option Value) :
    same before after = true ↔ normal before = normal after := by
  rw [same_eq_setEq, Value.setEq_iff_normal]
  rfl

theorem same_equivalence : Equivalence fun before after => same before after = true := by
  simp only [same_iff_normal]
  exact eq_equivalence.comap normal

theorem same_congr (hbefore : same before before' = true) (hafter : same after after' = true) :
    same before after = same before' after' := by
  rw [same_iff_normal] at hbefore hafter
  rw [Bool.eq_iff_iff, same_iff_normal, same_iff_normal, hbefore, hafter]

-- The attributes that were found to differ: those of which a value is told.
def reported (found : Option Difference) : Set String :=
  {name | ∃ difference ∈ found,
    (difference.previous.get? name).isSome ∨ (difference.updated.get? name).isSome}

-- The attributes that are to be changed.
def changed (found : Option Difference) : Set String :=
  {name | ∃ difference ∈ found, (difference.changes.get? name).isSome}

theorem mem_reported_iff :
    name ∈ reported (between stored fresh) ↔ differs stored fresh name = true := by
  constructor
  · rintro ⟨difference, hfound, hsome⟩
    rw [get?_previous hfound, get?_updated hfound] at hsome
    by_contra hsame
    simp [hsame] at hsome
  · intro h
    cases hfound : between stored fresh with
    | none =>
      rw [between_eq_none_iff.mp hfound name] at h
      cases h
    | some difference =>
      refine ⟨difference, rfl, ?_⟩
      rw [get?_previous hfound, get?_updated hfound, if_pos h, if_pos h]
      exact exists_of_differs h

theorem isSome_between_iff :
    (between stored fresh).isSome ↔ (reported (between stored fresh)).Nonempty := by
  rw [← not_iff_not, Option.not_isSome_iff_eq_none, between_eq_none_iff,
    Set.not_nonempty_iff_eq_empty, Set.eq_empty_iff_forall_notMem]
  refine forall_congr' fun name => ?_
  rw [mem_reported_iff, Bool.not_eq_true]

-- Apart from what is reported only the revision is changed, and never alone.
theorem mem_changed_iff :
    name ∈ changed (between stored fresh) ↔ name ∈ reported (between stored fresh) ∨
      name = Record.revisionAttribute ∧ (reported (between stored fresh)).Nonempty := by
  rw [← isSome_between_iff]
  cases hfound : between stored fresh with
  | none => simp [changed, reported]
  | some difference =>
    have hchange := get?_changes hfound name
    by_cases hname : name = Record.revisionAttribute
    · subst hname
      rw [if_pos rfl] at hchange
      simp [changed, hchange]
    · rw [if_neg hname] at hchange
      simp [changed, reported, hchange, hname, Option.isSome_or, or_comm]

theorem reported_congr
    (hstored : ∀ name, same (stored.get? name) (stored'.get? name) = true)
    (hfresh : ∀ name, same (fresh.get? name) (fresh'.get? name) = true) :
    reported (between stored fresh) = reported (between stored' fresh') := by
  ext name
  rw [mem_reported_iff, mem_reported_iff, differs, differs,
    same_congr (hstored name) (hfresh name)]

theorem changed_congr
    (hstored : ∀ name, same (stored.get? name) (stored'.get? name) = true)
    (hfresh : ∀ name, same (fresh.get? name) (fresh'.get? name) = true) :
    changed (between stored fresh) = changed (between stored' fresh') := by
  ext name
  rw [mem_changed_iff, mem_changed_iff, reported_congr hstored hfresh]

-- Values are in one line, however deep their lists are nested. Hence lists are the same set
-- just if each has the items of the other, to be the same set is an equivalence, and so is the
-- comparison of attributes, where a missing value is the empty list. Which attributes are
-- found to differ is decided by it, and by nothing of their values that it does not see.
theorem comparison_lawful :
    LawfulOrder Value.compare ∧
    (∀ as bs : List Value, (Value.list as).setEq (.list bs) = true ↔
      (∀ v ∈ as, v ∈ bs) ∧ ∀ v ∈ bs, v ∈ as) ∧
    (Equivalence fun a b : Value => a.setEq b = true) ∧
    (∀ before after, same before after =
      (before.getD (.list [])).setEq (after.getD (.list []))) ∧
    (Equivalence fun before after => same before after = true) ∧
    (∀ (stored fresh : Record) (name : String), name ∈ reported (between stored fresh) ↔
      same (stored.get? name) (fresh.get? name) = false) ∧
    ∀ stored stored' fresh fresh' : Record,
      (∀ name, same (stored.get? name) (stored'.get? name) = true) →
      (∀ name, same (fresh.get? name) (fresh'.get? name) = true) →
      reported (between stored fresh) = reported (between stored' fresh') ∧
        changed (between stored fresh) = changed (between stored' fresh') := by
  refine ⟨Value.lawfulOrder, Value.setEq_list_iff, Value.setEq_equivalence, same_eq_setEq,
    same_equivalence, fun stored fresh name => ?_, fun stored stored' fresh fresh' => ?_⟩
  · rw [mem_reported_iff, differs, Bool.not_eq_true']
  · intro hstored hfresh
    exact ⟨reported_congr hstored hfresh, changed_congr hstored hfresh⟩

-- Shuffled and repeated items and a missing list make no difference. Items of an item in
-- another order do.
theorem comparison_lawful_nested :
    let pair (first second : Int64) : Value := .list [.int first, .int second]
    let stored : Record := OrderedMap.ofList [("features", .list [pair 1 2, .list []]),
      ("sockets", .list [])]
    let stored' : Record := OrderedMap.ofList [("features", .list [.list [], pair 1 2, .list []])]
    let fresh : Record := OrderedMap.ofList [("features", .list [pair 2 1, .list []])]
    let fresh' : Record := OrderedMap.ofList [("features", .list [.list [], pair 2 1]),
      ("sockets", .list [])]
    reported (between stored fresh) = reported (between stored' fresh') ∧
      "features" ∈ reported (between stored' fresh') ∧
      "sockets" ∉ reported (between stored' fresh') := by
  intro pair stored stored' fresh fresh'
  have hall {record record' : Record} (h : between record record' = none) (name : String) :
      same (record.get? name) (record'.get? name) = true := by
    have hsame := between_eq_none_iff.mp h name
    rwa [differs, Bool.not_eq_false'] at hsame
  obtain ⟨_, _, _, _, _, hreported, hclasses⟩ := comparison_lawful
  obtain ⟨hsame, _⟩ := hclasses stored stored' fresh fresh' (hall (by decide +kernel))
    (hall (by decide +kernel))
  refine ⟨hsame, (hreported stored' fresh' _).mpr (by decide +kernel), fun h => ?_⟩
  exact absurd ((hreported stored' fresh' _).mp h) (by decide +kernel)

end Difference

end LightningRecords

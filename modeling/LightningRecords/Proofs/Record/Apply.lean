import LightningRecords.Proofs.Record.Pointwise

namespace LightningRecords

namespace Value

-- What becomes of a value when another is added to it. A list takes on the items of a
-- list, and anything else as its last item; numbers are summed exactly.
inductive Adds : Value → Value → Value → Prop
  | concat (items more : List Value) : Adds (.list items) (.list more) (.list (items ++ more))
  | push {items : List Value} {value : Value} (h : ∀ more, value ≠ .list more) :
    Adds (.list items) value (.list (items ++ [value]))
  | sum {a b c : Int64} (h : c.toInt = a.toInt + b.toInt) : Adds (.int a) (.int b) (.int c)

-- Why a value does not take another: it is no list, and the two are not numbers that
-- have a sum.
inductive Refuses (name : String) : Value → Value → ChangeError → Prop
  | overflow {a b : Int64} (h : a.toInt + b.toInt < -2 ^ 63 ∨ 2 ^ 63 ≤ a.toInt + b.toInt) :
    Refuses name (.int a) (.int b) (.overflow name b)
  | unlike {current value : Value} (hlist : ∀ items, current ≠ .list items)
    (hints : ∀ a b, current = .int a → value ≠ .int b) :
    Refuses name current value (.unlike name value.kind current.kind)

variable {name : String} {current value sum : Value} {error : ChangeError}

theorem adds_or_refuses (name : String) (current value : Value) :
    (∃ sum, Adds current value sum) ∨ ∃ error, Refuses name current value error := by
  cases current with
  | list items =>
    cases value with
    | list more => exact .inl ⟨_, .concat items more⟩
    | _ => exact .inl ⟨_, .push (by simp)⟩
  | int a =>
    cases value with
    | int b =>
      cases hsum : checkedAdd? a b with
      | some c => exact .inl ⟨.int c, .sum (checkedAdd?_eq_some_iff.mp hsum)⟩
      | none => exact .inr ⟨_, .overflow (checkedAdd?_eq_none_iff.mp hsum)⟩
    | _ => exact .inr ⟨_, .unlike (by simp) (by simp)⟩
  | _ => exact .inr ⟨_, .unlike (by simp) (by simp)⟩

theorem Adds.add_eq (h : Adds current value sum) (name : String) :
    add name current value = .ok sum := by
  cases h with
  | concat items more => rfl
  | push h =>
    cases value with
    | list more => exact absurd rfl (h more)
    | _ => rfl
  | sum h => simp only [add, checkedAdd?_eq_some_iff.mpr h]

theorem Refuses.add_eq (h : Refuses name current value error) :
    add name current value = .error error := by
  cases h with
  | overflow h => simp only [add, checkedAdd?_eq_none_iff.mpr h]
  | unlike hlist hints =>
    unfold add
    split
    · exact absurd rfl (hlist _)
    · exact absurd rfl (hlist _)
    · exact absurd rfl (hints _ _ rfl)
    · rfl

theorem add_eq_ok_iff (name : String) :
    add name current value = .ok sum ↔ Adds current value sum := by
  constructor
  · intro h
    rcases adds_or_refuses name current value with ⟨other, hadds⟩ | ⟨error, hrefuses⟩
    · cases h.symm.trans (hadds.add_eq name)
      exact hadds
    · cases h.symm.trans hrefuses.add_eq
  · exact fun h => h.add_eq name

theorem add_eq_error_iff :
    add name current value = .error error ↔ Refuses name current value error := by
  constructor
  · intro h
    rcases adds_or_refuses name current value with ⟨sum, hadds⟩ | ⟨other, hrefuses⟩
    · cases h.symm.trans (hadds.add_eq name)
    · cases h.symm.trans hrefuses.add_eq
      exact hrefuses
  · exact fun h => h.add_eq

end Value

-- What a change, or none, makes of an attribute that has a value or none.
def Change.Makes : Option Change → Option Value → Option Value → Prop
  | none, before, after => after = before
  | some (.set value), _, after => after = some value
  | some .remove, _, after => after = none
  | some (.add value), none, after => after = some value
  | some (.add value), some current, after => ∃ sum, after = some sum ∧ current.Adds value sum

theorem Change.outcome_eq_ok_iff (name : String) {change : Change} {before after : Option Value} :
    change.outcome name before = .ok after ↔ Makes (some change) before after := by
  cases change with
  | set value => simp [outcome, Makes, eq_comm]
  | remove => simp [outcome, Makes, eq_comm]
  | add value =>
    cases before with
    | none => simp [outcome, Makes, eq_comm]
    | some current =>
      simp only [outcome, Makes, ← Value.add_eq_ok_iff name]
      cases current.add name value <;> simp [Except.map, eq_comm]

namespace Changes

variable {changes : Changes} {record result : Record} {name : String} {error : ChangeError}

-- The change of an attribute is to add to a value that does not take it.
def Misfits (changes : Changes) (record : Record) (name : String) (error : ChangeError) : Prop :=
  ∃ value current, changes.get? name = some (.add value) ∧ record.get? name = some current ∧
    current.Refuses name value error

theorem changeMisfit?_eq_some_iff {change : Change} :
    Change.misfit? record (name, change) = some error ↔
      ∃ value current, change = .add value ∧ record.get? name = some current ∧
        current.Refuses name value error := by
  cases change with
  | set value => simp [Change.misfit?, Change.outcome]
  | remove => simp [Change.misfit?, Change.outcome]
  | add value =>
    cases hget : record.get? name with
    | none => simp [Change.misfit?, Change.outcome, hget]
    | some current =>
      simp only [Change.misfit?, Change.outcome, hget, ← Value.add_eq_error_iff]
      cases hadd : current.add name value <;> simp [Except.map, hadd]

theorem misfit?_eq_some_iff :
    changes.misfit? record = some error ↔
      ∃ name, changes.Misfits record name error ∧
        ∀ other e, Text.compare other name = .lt → ¬changes.Misfits record other e := by
  rw [misfit?, OrderedMap.findSome?_toList_eq_some_iff]
  simp only [Option.eq_none_iff_forall_ne_some, ne_eq, changeMisfit?_eq_some_iff, Misfits]
  constructor
  · rintro ⟨name, change, hget, ⟨value, current, rfl, hcurrent, hrefuses⟩, hnone⟩
    refine ⟨name, ⟨value, current, hget, hcurrent, hrefuses⟩, ?_⟩
    rintro other e hlt ⟨value', current', hget', hcurrent', hrefuses'⟩
    exact hnone other _ hget' hlt e ⟨value', current', rfl, hcurrent', hrefuses'⟩
  · rintro ⟨name, ⟨value, current, hget, hcurrent, hrefuses⟩, hnone⟩
    refine ⟨name, _, hget, ⟨value, current, rfl, hcurrent, hrefuses⟩, ?_⟩
    rintro other change hget' hlt e ⟨value', current', rfl, hcurrent', hrefuses'⟩
    exact hnone other e hlt ⟨value', current', hget', hcurrent', hrefuses'⟩

theorem misfit?_eq_none_iff :
    changes.misfit? record = none ↔ ∀ name error, ¬changes.Misfits record name error := by
  rw [misfit?, List.findSome?_eq_none_iff]
  constructor
  · rintro h name error ⟨value, current, hget, hcurrent, hrefuses⟩
    have hnone := h _ ((OrderedMap.mem_toList_iff changes name _).mpr hget)
    rw [changeMisfit?_eq_some_iff.mpr ⟨value, current, rfl, hcurrent, hrefuses⟩] at hnone
    cases hnone
  · intro h e he
    rw [Option.eq_none_iff_forall_ne_some]
    intro error herror
    obtain ⟨value, current, hadd, hcurrent, hrefuses⟩ := changeMisfit?_eq_some_iff.mp herror
    have hget := OrderedMap.get?_of_mem he
    rw [hadd] at hget
    exact h e.1 error ⟨value, current, hget, hcurrent, hrefuses⟩

theorem apply_eq_error_iff :
    changes.apply record = .error error ↔ changes.misfit? record = some error := by
  rw [apply_eq]
  cases changes.misfit? record <;> simp [eq_comm]

theorem makes_of_apply (h : changes.apply record = .ok result) (name : String) :
    Change.Makes (changes.get? name) (record.get? name) (result.get? name) := by
  cases hchange : changes.get? name with
  | none => exact get?_of_apply_of_none h hchange
  | some change => exact (Change.outcome_eq_ok_iff name).mp (outcome_of_apply h hchange)

-- An attribute is made one thing only.
theorem makes_unique {change : Option Change} {before after after' : Option Value}
    (h : Change.Makes change before after) (h' : Change.Makes change before after') :
    after = after' := by
  cases change with
  | none => exact h.trans h'.symm
  | some change =>
    rw [← Change.outcome_eq_ok_iff ""] at h h'
    exact Except.ok.inj (h.symm.trans h')

theorem apply_eq_ok_iff :
    changes.apply record = .ok result ↔
      ∀ name, Change.Makes (changes.get? name) (record.get? name) (result.get? name) := by
  constructor
  · exact makes_of_apply
  · intro h
    cases happly : changes.apply record with
    | ok other =>
      congr 1
      apply OrderedMap.ext_get?
      intro name
      exact makes_unique (makes_of_apply happly name) (h name)
    | error error =>
      -- the attribute that stopped the changes has no sum to become
      obtain ⟨name, ⟨value, current, hchange, hcurrent, hrefuses⟩, _⟩ :=
        misfit?_eq_some_iff.mp (apply_eq_error_iff.mp happly)
      have hmakes := h name
      rw [hchange, hcurrent] at hmakes
      obtain ⟨sum, _, hadds⟩ := hmakes
      cases hrefuses.add_eq.symm.trans (hadds.add_eq name)

theorem get?_bumpRevision (changes : Changes) :
    changes.bumpRevision.get? Record.revisionAttribute = some (.add (.int 1)) :=
  OrderedMap.get?_insert_self _ _ _

-- Counting on a revision makes it one more, or finds that there is no more.
theorem makes_bumpRevision {n : Int64} {after : Option Value}
    (h : Change.Makes (some (.add (.int 1))) (some (.int n)) after) :
    ∃ next : Int64, after = some (.int next) ∧ next.toInt = n.toInt + 1 := by
  obtain ⟨sum, rfl, hadds⟩ := h
  cases hadds with
  | @sum _ _ next hnext => exact ⟨next, rfl, hnext⟩

-- Changes apply to each attribute by itself, and all of them or none. One attribute whose
-- value does not take what is to be added stops all, and of several the least is told. What
-- becomes of an attribute depends on its change and its value alone.
theorem apply_attributewise (changes : Changes) (record : Record) :
    ((∃ error, changes.apply record = .error error) ↔
      ∃ name error, changes.Misfits record name error) ∧
    (∀ error, changes.apply record = .error error ↔
      ∃ name, changes.Misfits record name error ∧
        ∀ other e, Text.compare other name = .lt → ¬changes.Misfits record other e) ∧
    (∀ result, changes.apply record = .ok result ↔
      ∀ name, Change.Makes (changes.get? name) (record.get? name) (result.get? name)) ∧
    (∀ (changes' : Changes) (record' result result' : Record) (name : String),
      changes.apply record = .ok result → changes'.apply record' = .ok result' →
      changes'.get? name = changes.get? name → record'.get? name = record.get? name →
      result'.get? name = result.get? name) ∧
    (∀ n : Int64, record.get? Record.revisionAttribute = some (.int n) →
      (∃ result, changes.bumpRevision.apply record = .ok result ∧
        ∃ next : Int64, result.get? Record.revisionAttribute = some (.int next) ∧
          next.toInt = n.toInt + 1) ∨
      ∃ error, changes.bumpRevision.apply record = .error error) := by
  refine ⟨?_, fun error => ?_, fun result => apply_eq_ok_iff, ?_, ?_⟩
  · simp only [apply_eq_error_iff, ← Option.isSome_iff_exists, ← Option.ne_none_iff_isSome, ne_eq,
      misfit?_eq_none_iff]
    push Not
    rfl
  · rw [apply_eq_error_iff, misfit?_eq_some_iff]
  · intro changes' record' result result' name h h' hchange hvalue
    have hmakes := makes_of_apply h' name
    rw [hchange, hvalue] at hmakes
    exact makes_unique hmakes (makes_of_apply h name)
  · intro n hn
    cases happly : changes.bumpRevision.apply record with
    | error error => exact .inr ⟨error, rfl⟩
    | ok result =>
      have hmakes := makes_of_apply happly Record.revisionAttribute
      rw [get?_bumpRevision, hn] at hmakes
      exact .inl ⟨result, rfl, makes_bumpRevision hmakes⟩

end Changes

end LightningRecords

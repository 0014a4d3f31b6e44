import LightningRecords.Proofs.Procedure.Behaves

namespace LightningRecords

open Difference (Alike)

section LastTold

variable {ι α : Type}

-- The latest answer that any item of a history gives.
def lastTold (f : ι → Option α) (history : List ι) : Option α := history.reverse.findSome? f

@[simp] theorem lastTold_append (f : ι → Option α) (history : List ι) (item : ι) :
    lastTold f (history ++ [item]) = (f item).or (lastTold f history) := by
  simp only [lastTold, List.reverse_append, List.reverse_cons, List.reverse_nil, List.nil_append,
    List.singleton_append, List.findSome?_cons]
  cases f item <;> rfl

end LastTold

namespace Value

-- No list, so that only the same value is like it.
def IsPlain (value : Value) : Prop := value.asList? = none

theorem isPlain_of_map {α : Type} {told : Option α} {f : α → Value} (hf : ∀ a, (f a).IsPlain) :
    ∀ value ∈ told.map f, value.IsPlain := by
  intro value hvalue
  obtain ⟨a, _, rfl⟩ := Option.map_eq_some_iff.mp hvalue
  exact hf a

end Value

-- Lists are compared as sets, everything else by what it is.
theorem Difference.Alike.eq_of_plain {before after : Option Value} (h : Alike before after)
    (hbefore : ∀ value ∈ before, value.IsPlain) (hafter : ∀ value ∈ after, value.IsPlain) :
    before = after := by
  cases before with
  | none =>
    cases after with
    | none => rfl
    | some value => exact absurd h (not_alike_none (hafter value rfl))
  | some value =>
    rcases h with heq | ⟨items, _, hitems, _⟩
    · exact heq
    · have hplain := hbefore value rfl
      rw [Option.getD_some] at hitems
      rw [hitems] at hplain
      cases hplain

theorem Schema.Settled.get?_of_plain {schema : Schema} {stored : Option Record}
    {fresh after : Record} (h : schema.Settled stored fresh after) {name : String}
    (hname : name ∈ schema.mutable) (hstored : ∀ value ∈ stored? stored name, value.IsPlain)
    (hfresh : ∀ value ∈ fresh.get? name, value.IsPlain) : after.get? name = fresh.get? name := by
  rcases h name hname with heq | ⟨heq, halike⟩
  · exact heq
  · exact heq.trans (halike.eq_of_plain hstored hfresh)

-- What reconciling what is stored with a fresh record leaves there.
inductive Schema.Leaves (schema : Schema) : (stored fresh after : Option Record) → Prop where
  | idle (stored : Option Record) : Leaves schema stored none stored
  | first (fresh : Record) :
      Leaves schema none (some fresh)
        (some (fresh.insert Record.revisionAttribute (.int Schema.baseRevision)))
  | same (original fresh : Record)
      (halike : ∀ name ∈ schema.mutable, Alike (original.get? name) (fresh.get? name)) :
      Leaves schema (some original) (some fresh) (some original)
  | news (original fresh after : Record) (hrevised : schema.Revised original fresh after)
      (hcounts : ∃ before next : Int64,
        original.get? Record.revisionAttribute = some (.int before) ∧
        after.get? Record.revisionAttribute = some (.int next) ∧ next.toInt = before.toInt + 1) :
      Leaves schema (some original) (some fresh) (some after)

-- Whatever happens to a record that is reported, its mutable attributes are settled and
-- the others are those of the first report.
theorem Schema.Leaves.settled {schema : Schema} {stored after : Option Record} {fresh : Record}
    (hmutable : Record.revisionAttribute ∉ schema.mutable)
    (h : schema.Leaves stored (some fresh) after) :
    ∃ record, after = some record ∧ schema.Settled stored fresh record ∧
      (stored.getD fresh).AgreeBut schema.mutable record := by
  cases h with
  | first =>
    refine ⟨_, rfl, Schema.settled_of_created hmutable _, fun name hname _ => ?_⟩
    exact OrderedMap.get?_insert_of_ne _ _ hname
  | same original _ halike =>
    exact ⟨original, rfl, fun name hname => .inr ⟨rfl, halike name hname⟩, fun _ _ _ => rfl⟩
  | news _ _ record hrevised _ => exact ⟨record, rfl, hrevised.settled, hrevised.others⟩

namespace Procedure

variable {schema : Schema} {key : Key} {outcome : Outcome} {stored fresh : Option Record}
  {answers : (q : Question) → Except String q.Answer} {e e' : Environment}

theorem leaves_of_reconcile (hmutable : Record.revisionAttribute ∉ schema.mutable)
    (hstorable : ∀ record ∈ fresh, record.Storable)
    (hfirst : stored = none → ∀ record ∈ fresh, record.get? Record.revisionAttribute = none)
    (hheld : e.held schema.table key = .ok stored)
    (h : execute answers (reconcile schema key stored fresh) e = (.ok outcome, e')) :
    ∃ after, e'.held schema.table key = .ok after ∧ schema.Leaves stored fresh after := by
  cases fresh with
  | none => cases stored <;> cases h <;> exact ⟨_, hheld, .idle _⟩
  | some record =>
    have hrecord := hstorable record rfl
    cases stored with
    | none =>
      obtain ⟨_, hwrites⟩ := create_eq_ok (hfirst rfl record rfl) hheld h
      have hdepth : (Value.int Schema.baseRevision).depth ≤ Record.maxValueDepth := Nat.zero_le _
      exact ⟨_, hwrites.held_self (hrecord.insert _ hdepth), .first record⟩
    | some original =>
      by_cases himmutable : schema.isImmutable
      · simp only [reconcile, himmutable, if_true] at h
        cases h
        refine ⟨_, hheld, .same original record fun name hname => ?_⟩
        rw [List.isEmpty_iff.mp himmutable] at hname
        cases hname
      · simp only [reconcile, himmutable, Bool.false_eq_true, if_false] at h
        rcases revise_eq_ok hheld h with
          ⟨hsame, _, rfl⟩ | ⟨difference, revision, after, hdifference, _, hget, happly, hwrites⟩
        · exact ⟨_, hheld, .same original record (mutableDifference_eq_none_iff.mp hsame)⟩
        · have hrevision : original.revision? = some revision := by
            simp [Record.revision?, hget, Value.asInt?]
          have hrevised := revised_of_apply hmutable hrecord hdifference hrevision happly
          have hfollows := Outcome.follows_of_apply hrecord hdifference hget happly
          have hafter := storable_of_apply hrecord hheld hdifference hget happly
          exact ⟨_, hwrites.held_self hafter, .news original record after hrevised
            hfollows.revision⟩

-- A load that succeeds finds what is held, which can be stored again.
theorem execute_load_found {α : Type} {a : α} {table : String} {f : Option Record → Procedure α}
    (h : execute answers (load table key >>= f) e = (.ok a, e')) :
    ∃ stored e₁, e.held table key = .ok stored ∧ e.Keeps e₁ ∧
      execute answers (f stored) e₁ = (.ok a, e') := by
  obtain ⟨stored, e₁, hget, h⟩ := execute_load_eq_ok h
  exact ⟨stored, e₁, Environment.held_of_get hget, Environment.get_keeps hget, h⟩

theorem execute_load_of_held {α : Type} {a : α} {table : String} {f : Option Record → Procedure α}
    (hheld : e.held table key = .ok stored)
    (h : execute answers (load table key >>= f) e = (.ok a, e')) :
    ∃ e₁, e₁.held table key = .ok stored ∧ (∀ record ∈ stored, record.Storable) ∧
      execute answers (f stored) e₁ = (.ok a, e') := by
  obtain ⟨found, e₁, hfound, hkeeps, h⟩ := execute_load_found h
  cases hheld.symm.trans hfound
  refine ⟨e₁, (hkeeps.held table key).trans hheld, ?_, h⟩
  rintro record rfl
  exact Environment.storable_of_held hheld

section Succession

variable {ι : Type} {call : ι → Environment → Except SyncError Outcome × Environment}
  {table : String} {items : List ι}

-- One call after another, all of them successful, about the record under one key. Before
-- each of them anyone may do anything but change what stands there.
inductive Succession (call : ι → Environment → Except SyncError Outcome × Environment) (table : String)
    (key : Key) : List ι → Environment → Environment → Prop where
  | start (e : Environment) : Succession call table key [] e e
  | step {items : List ι} {item : ι} {e e₁ e₂ e' : Environment} {outcome : Outcome}
      (h : Succession call table key items e e₁)
      (hidle : e₂.held table key = e₁.held table key)
      (hcall : call item e₂ = (.ok outcome, e')) :
      Succession call table key (items ++ [item]) e e'

-- What each call keeps of the record, seen against all that was told so far, holds in the
-- end.
theorem Succession.holds (h : Succession call table key items e e')
    (holds : List ι → Option Record → Prop) (hvacant : e.held table key = .ok none)
    (hnil : holds [] none)
    (hstep : ∀ earlier item stored e outcome e', earlier ++ [item] <+: items →
      holds earlier stored → e.held table key = .ok stored → call item e = (.ok outcome, e') →
      ∃ after, e'.held table key = .ok after ∧ holds (earlier ++ [item]) after) :
    ∃ after, e'.held table key = .ok after ∧ holds items after := by
  induction h with
  | start => exact ⟨none, hvacant, hnil⟩
  | @step items item e e₁ e₂ e' outcome _ hidle hcall ih =>
    obtain ⟨stored, hstored, hholds⟩ := ih hvacant fun earlier item stored e outcome e' hinitial =>
      hstep earlier item stored e outcome e' (hinitial.trans (List.prefix_append _ _))
    exact hstep items item stored e₂ outcome e' (List.prefix_refl _) hholds
      (hidle.trans hstored) hcall

theorem Succession.eq_of_nil (h : Succession call table key items e e') (hitems : items = []) :
    e' = e := by
  cases h with
  | start => rfl
  | step => simp at hitems

theorem Succession.exists_call (h : Succession call table key items e e') (hitems : items ≠ []) :
    ∃ item ∈ items, ∃ e₁ outcome e₂, call item e₁ = (.ok outcome, e₂) := by
  cases h with
  | start => exact absurd rfl hitems
  | step _ _ hcall => exact ⟨_, by simp, _, _, _, hcall⟩

end Succession

end Procedure

end LightningRecords

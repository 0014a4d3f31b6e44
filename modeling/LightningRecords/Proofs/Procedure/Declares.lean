import LightningRecords.Proofs.Procedure.Drafts
import LightningRecords.Proofs.Procedure.Reconcile

namespace LightningRecords

-- A record that is identified as a policy's and was published. Whether the policy is disabled
-- is a boolean or not told, and as given.
structure Record.IsPolicy (told : Option Bool → Prop) (record : Record) : Prop where
  id : ∃ text, record.get? "id" = some (.text text)
  publicKey : ∃ bytes, record.get? "public_key" = some (.bytes bytes)
  updatedAt : ∃ text, record.get? "updated_at" = some (.text text)
  isDisabled : ∃ flag : Option Bool, told flag ∧ record.get? "is_disabled" = flag.map .bool

namespace Record.IsPolicy

variable {told : Option Bool → Prop} {record base fresh after : Record}

theorem mono {others : Option Bool → Prop} (h : record.IsPolicy told)
    (htold : ∀ flag, told flag → others flag) : record.IsPolicy others where
  id := h.id
  publicKey := h.publicKey
  updatedAt := h.updatedAt
  isDisabled := h.isDisabled.imp fun flag hflag => ⟨htold flag hflag.1, hflag.2⟩

theorem insert_revision (h : record.IsPolicy told) (revision : Value) :
    IsPolicy told (record.insert revisionAttribute revision) := by
  constructor <;> rw [OrderedMap.get?_insert_of_ne _ _ (by decide)]
  exacts [h.id, h.publicKey, h.updatedAt, h.isDisabled]

-- Each attribute may come from either of two such records.
theorem mix (hbase : base.IsPolicy told) (hfresh : fresh.IsPolicy told)
    (h : ∀ name, name ≠ revisionAttribute →
      after.get? name = base.get? name ∨ after.get? name = fresh.get? name) :
    after.IsPolicy told := by
  constructor
  · rcases h "id" (by decide) with heq | heq <;> rw [heq]
    exacts [hbase.id, hfresh.id]
  · rcases h "public_key" (by decide) with heq | heq <;> rw [heq]
    exacts [hbase.publicKey, hfresh.publicKey]
  · rcases h "updated_at" (by decide) with heq | heq <;> rw [heq]
    exacts [hbase.updatedAt, hfresh.updatedAt]
  · rcases h "is_disabled" (by decide) with heq | heq <;> rw [heq]
    exacts [hbase.isDisabled, hfresh.isDisabled]

end Record.IsPolicy

namespace PolicyReport

variable {report : ChannelReport} {publicKey : String} {stored : Option Record}
  {policy : PolicyReport}

theorem isPolicy_record {told : Option Bool → Prop} (hupdated : policy.updatedAt.isSome = true)
    (htold : told policy.isDisabled) (channelId : String) (bytes : Bytes) :
    (policy.record channelId bytes).IsPolicy told where
  id := ⟨channelId, by simp [record, OrderedMap.ofList]⟩
  publicKey := ⟨bytes, by simp [record, OrderedMap.ofList]⟩
  updatedAt := by
    obtain ⟨text, htext⟩ := Option.isSome_iff_exists.mp hupdated
    exact ⟨text, by simp [record, htext]⟩
  isDisabled := ⟨policy.isDisabled, htold, by simp [record, OrderedMap.ofList]⟩

-- What is taken for a policy is one of the channel's, by the given author, and published. The
-- first that is taken also says whether it is disabled.
theorem ofChannel?_eq_some (h : ofChannel? report publicKey stored = some policy) :
    policy ∈ report.policies ∧ policy.publicKey = publicKey ∧ policy.updatedAt.isSome = true ∧
      (stored = none → policy.isDisabled.isSome = true) := by
  obtain ⟨found, hfind, h⟩ := Option.bind_eq_some_iff.mp h
  obtain ⟨_, hupdated, h⟩ := Option.bind_eq_some_iff.mp h
  obtain ⟨_, hfirst, h⟩ := Option.bind_eq_some_iff.mp h
  cases h
  rw [Option.guard_eq_some'] at hupdated hfirst
  refine ⟨List.mem_of_find?_eq_some hfind, by simpa using List.find?_some hfind, hupdated, ?_⟩
  rintro rfl
  simpa using hfirst

end PolicyReport

namespace Procedure

variable {schema : Schema} {original base fresh after : Record} {difference : Difference}

-- Whatever record the changes are applied to, its attributes stay or become those of the fresh
-- one.
theorem get?_of_apply_difference
    (hdifference : mutableDifference schema original fresh = some difference)
    (happly : difference.changes.apply base = .ok after) {name : String}
    (hname : name ≠ Record.revisionAttribute) :
    after.get? name = base.get? name ∨ after.get? name = fresh.get? name := by
  have hchange := Difference.get?_changes hdifference name
  rw [if_neg hname] at hchange
  cases hupdated : difference.updated.get? name with
  | some value =>
    rw [hupdated] at hchange
    have houtcome := Changes.outcome_of_apply happly hchange
    obtain ⟨_, _, hvalue⟩ := (get?_updated_iff hdifference name value).mp hupdated
    exact .inr ((Except.ok.inj houtcome).symm.trans hvalue.symm)
  | none =>
    rw [hupdated] at hchange
    cases hprevious : difference.previous.get? name with
    | none =>
      rw [hprevious] at hchange
      exact .inl (Changes.get?_of_apply_of_none happly hchange)
    | some value =>
      rw [hprevious] at hchange
      have houtcome := Changes.outcome_of_apply happly hchange
      obtain ⟨hmutable, hdiffers, _⟩ := (get?_previous_iff hdifference name value).mp hprevious
      -- Had the fresh record the attribute, it would be among the updates.
      have hgone : fresh.get? name = none := by
        cases hfresh : fresh.get? name with
        | none => rfl
        | some value =>
          have hvalue := (get?_updated_iff hdifference name value).mpr ⟨hmutable, hdiffers, hfresh⟩
          rw [hupdated] at hvalue
          cases hvalue
      exact .inr ((Except.ok.inj houtcome).symm.trans hgone.symm)

end Procedure

section Declares

variable {α β : Type}

-- All that a reply reports under any key, of what is published, is as given.
def Request.Tells (told : Key → Option Bool → Prop) : (r : Request) → r.Reply → Prop
  | .ask (.channel id), .ok (some report) =>
    ∀ policy ∈ report.policies, ∀ key, Field.key .policy [policy.publicKey, id] = .ok key →
      policy.updatedAt.isSome = true → told key policy.isDisabled
  | _, _ => True

-- All that an interaction writes is a policy's, as long as the replies are as given: what it
-- puts, which also says whether the policy is disabled, and what it makes of such a record.
def Interaction.Declares (told : Key → Option Bool → Prop) : Interaction α → Prop
  | .done _ => True
  | .request r next =>
    (∀ table key record fresh, r = .put table key record fresh →
      record.IsPolicy fun flag => told key flag ∧ flag.isSome = true) ∧
    (∀ table key changes expected, r = .update table key changes expected →
      ∀ base record, base.IsPolicy (told key) → changes.apply base = .ok record →
        record.IsPolicy (told key)) ∧
    ∀ reply, r.Tells told reply → (next reply).Declares told

variable {told : Key → Option Bool → Prop} {entity table : String} {question : Question}
  {key : Key}

theorem Interaction.Declares.bind_ofExcept {x : Except SyncError β} {f : β → Procedure α}
    (h : ∀ b, x = .ok b → (f b).run.Declares told) :
    (Procedure.ofExcept x >>= f).run.Declares told := by
  cases x with
  | error error => trivial
  | ok b => exact h b rfl

theorem Interaction.Declares.bind_ask {f : question.Answer → Procedure α}
    (h : ∀ answer, (Request.ask question).Tells told (.ok answer) → (f answer).run.Declares told) :
    (Procedure.ask entity question >>= f).run.Declares told := by
  refine ⟨?_, ?_, fun reply htold => ?_⟩
  · rintro _ _ _ _ ⟨⟩
  · rintro _ _ _ _ ⟨⟩
  · cases reply with
    | error message => trivial
    | ok answer => exact h answer htold

theorem Interaction.Declares.bind_load {f : Option Record → Procedure α}
    (h : ∀ stored, (f stored).run.Declares told) :
    (Procedure.load table key >>= f).run.Declares told := by
  refine ⟨?_, ?_, fun reply _ => ?_⟩
  · rintro _ _ _ _ ⟨⟩
  · rintro _ _ _ _ ⟨⟩
  · cases reply with
    | error error => trivial
    | ok stored => exact h stored

namespace Procedure

theorem declares_reconcile {schema : Schema} {stored fresh : Option Record}
    (hrevision : ∀ record ∈ fresh, record.get? Record.revisionAttribute = none)
    (hfirst : stored = none → ∀ record ∈ fresh,
      record.IsPolicy fun flag => told key flag ∧ flag.isSome = true)
    (hlater : ∀ record ∈ fresh, record.IsPolicy (told key)) :
    (reconcile schema key stored fresh).run.Declares told := by
  cases fresh with
  | none => cases stored <;> trivial
  | some fresh =>
    cases stored with
    | none =>
      simp only [reconcile, create_run (hrevision fresh rfl)]
      refine ⟨?_, ?_, fun _ _ => trivial⟩
      · rintro _ _ _ _ ⟨⟩
        exact (hfirst rfl fresh rfl).insert_revision _
      · rintro _ _ _ _ ⟨⟩
    | some original =>
      simp only [reconcile]
      split
      · trivial
      · cases hdifference : mutableDifference schema original fresh with
        | none =>
          rw [revise_run_of_same hdifference]
          trivial
        | some difference =>
          cases hrevision : original.revision? with
          | none =>
            rw [revise_run_of_unrevised hdifference hrevision]
            trivial
          | some revision =>
            rw [revise_run hdifference hrevision]
            refine ⟨?_, ?_, fun _ _ => trivial⟩
            · rintro _ _ _ _ ⟨⟩
            · rintro _ _ _ _ ⟨⟩ base record hbase happly
              exact hbase.mix (hlater fresh rfl) fun name =>
                get?_of_apply_difference hdifference happly

theorem declares_policy (publicKey channelId : String) :
    (policy publicKey channelId).run.Declares told := by
  refine .bind_ofExcept fun bytes _ => .bind_ofExcept fun _ _ => .bind_ofExcept fun key hkey =>
    .bind_load fun stored => .bind_ask fun report htold => ?_
  have htaken : ∀ policy,
      (report.bind fun report => PolicyReport.ofChannel? report publicKey stored) = some policy →
      policy.updatedAt.isSome = true ∧ told key policy.isDisabled ∧
        (stored = none → policy.isDisabled.isSome = true) := by
    intro policy hpolicy
    obtain ⟨report, rfl, hpolicy⟩ := Option.bind_eq_some_iff.mp hpolicy
    obtain ⟨hmem, rfl, hupdated, hfirst⟩ := PolicyReport.ofChannel?_eq_some hpolicy
    exact ⟨hupdated, htold policy hmem key hkey hupdated, hfirst⟩
  refine declares_reconcile ?_ ?_ ?_ <;> simp only [Option.mem_def, Option.map_eq_some_iff]
  · rintro _ ⟨policy, _, rfl⟩
    exact (policy.drafts_record channelId bytes).revision
  · rintro hnone _ ⟨policy, hpolicy, rfl⟩
    obtain ⟨hupdated, htold, hfirst⟩ := htaken policy hpolicy
    exact policy.isPolicy_record hupdated ⟨htold, hfirst hnone⟩ channelId bytes
  · rintro _ ⟨policy, hpolicy, rfl⟩
    obtain ⟨hupdated, htold, _⟩ := htaken policy hpolicy
    exact policy.isPolicy_record hupdated htold channelId bytes

end Procedure

end Declares

end LightningRecords

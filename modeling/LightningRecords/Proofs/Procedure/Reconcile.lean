import LightningRecords.Procedure.Reconcile
import LightningRecords.Proofs.Difference
import LightningRecords.Proofs.Store.Rows

namespace LightningRecords

namespace Procedure

variable {schema : Schema} {key : Key} {original fresh : Record} {difference : Difference}

-- What a procedure makes of the reply to a first write, and to an update.
def settleCreation {α : Type} (schema : Schema) (created unchanged : α) :
    Except StoreError Unit → Except SyncError α
  | .ok () => .ok created
  | .error error =>
    if schema.isImmutable && error.isFreshViolation then .ok unchanged else .error (.store error)

def settleUpdate {α : Type} (updated : α) : Except StoreError Record → Except SyncError α
  | .ok _ => .ok updated
  | .error error => .error (.store error)

theorem create_run (hfresh : fresh.get? Record.revisionAttribute = none) :
    (create schema key fresh).run =
      .request
        (.put schema.table key (fresh.insert Record.revisionAttribute (.int Schema.baseRevision))
          [schema.unique])
        fun reply => .done (settleCreation schema (.created fresh) .unchanged reply) := by
  have hwithout : Record.without (fresh.insert Record.revisionAttribute (.int Schema.baseRevision))
      Record.revisionAttribute = fresh := by
    apply OrderedMap.ext_get?
    intro name
    by_cases hname : name = Record.revisionAttribute <;> simp [Record.without, hname, hfresh]
  refine congrArg (Interaction.request _) (funext fun reply => ?_)
  cases reply with
  | ok =>
    change Interaction.done (Except.ok (Outcome.created (Record.without _ _))) = _
    rw [hwithout]
    rfl
  | error error =>
    simp only [settleCreation]
    split
    · rename_i hyield
      exact congrArg ExceptT.run (if_pos hyield)
    · rename_i hfail
      exact congrArg ExceptT.run (if_neg hfail)

-- What differs between the attributes that may.
def mutableDifference (schema : Schema) (original fresh : Record) : Option Difference :=
  Difference.between (original.project schema.mutable) (fresh.project schema.mutable)

theorem revise_run_of_same (h : mutableDifference schema original fresh = none) :
    (revise schema key original fresh).run = .done (.ok .unchanged) := by
  simp only [mutableDifference] at h
  simp only [revise, h]
  rfl

theorem revise_run_of_unrevised (h : mutableDifference schema original fresh = some difference)
    (hrevision : original.revision? = none) :
    (revise schema key original fresh).run =
      .done (.error (.store (.corrupted schema.table .noRevision))) := by
  simp only [mutableDifference] at h
  simp only [revise, h, expectRevision, hrevision]
  rfl

theorem revise_run {revision : Int64}
    (h : mutableDifference schema original fresh = some difference)
    (hrevision : original.revision? = some revision) :
    (revise schema key original fresh).run =
      .request
        (.update schema.table key difference.changes
          (OrderedMap.insert ∅ Record.revisionAttribute (.int revision)))
        fun reply => .done <|
          settleUpdate (.updated difference.previous difference.updated original) reply := by
  simp only [mutableDifference] at h
  simp only [revise, h, expectRevision, hrevision]
  refine congrArg (Interaction.request _) (funext fun reply => ?_)
  cases reply <;> rfl

theorem mutableDifference_eq_none_iff : mutableDifference schema original fresh = none ↔
    ∀ name ∈ schema.mutable, Difference.Alike (original.get? name) (fresh.get? name) := by
  rw [mutableDifference, Difference.between_eq_none_iff]
  refine forall_congr' fun name => ?_
  rw [← Difference.same_iff]
  by_cases hname : name ∈ schema.mutable
  · simp [Difference.differs, Record.get?_project, hname]
  · simp [Difference.differs, Record.get?_project, hname, Difference.same]

theorem get?_previous_iff (h : mutableDifference schema original fresh = some difference)
    (name : String) (value : Value) :
    difference.previous.get? name = some value ↔
      name ∈ schema.mutable ∧ ¬Difference.Alike (original.get? name) (fresh.get? name) ∧
        original.get? name = some value := by
  rw [Difference.get?_previous h, ← Difference.same_iff]
  by_cases hname : name ∈ schema.mutable <;> simp [Difference.differs, Record.get?_project, hname]

theorem get?_updated_iff (h : mutableDifference schema original fresh = some difference)
    (name : String) (value : Value) :
    difference.updated.get? name = some value ↔
      name ∈ schema.mutable ∧ ¬Difference.Alike (original.get? name) (fresh.get? name) ∧
        fresh.get? name = some value := by
  rw [Difference.get?_updated h, ← Difference.same_iff]
  by_cases hname : name ∈ schema.mutable <;> simp [Difference.differs, Record.get?_project, hname]

theorem revises_of_mutableDifference (hfresh : fresh.Storable)
    (h : mutableDifference schema original fresh = some difference) :
    difference.changes.Revises (· ∈ schema.mutable) := by
  refine Difference.revises h (fun name value hvalue => ?_) fun name hdiffers => ?_
  · rw [Record.get?_project] at hvalue
    split at hvalue
    · exact hfresh name value hvalue
    · cases hvalue
  · by_contra hname
    simp [Difference.differs, Record.get?_project, hname, Difference.same] at hdiffers

end Procedure

namespace Outcome

-- What an update leaves of a record: the updates are written over it, what they
-- do not name any more is gone, and it is one revision further.
structure Follows (original previous updates after : Record) : Prop where
  revision : ∃ before next, original.get? Record.revisionAttribute = some (.int before) ∧
    after.get? Record.revisionAttribute = some (.int next) ∧ next.toInt = before.toInt + 1
  attributes : ∀ name, name ≠ Record.revisionAttribute → after.get? name =
    (updates.get? name).or (if previous.contains name then none else original.get? name)

-- What the mutable attributes that differ were, and what they are by now.
structure Exchanges (schema : Schema) (original fresh previous updates : Record) : Prop where
  previous : ∀ name value, previous.get? name = some value ↔
    name ∈ schema.mutable ∧ ¬Difference.Alike (original.get? name) (fresh.get? name) ∧
      original.get? name = some value
  updates : ∀ name value, updates.get? name = some value ↔
    name ∈ schema.mutable ∧ ¬Difference.Alike (original.get? name) (fresh.get? name) ∧
      fresh.get? name = some value

-- What has to hold before and after for an outcome to be true.
def Tells (schema : Schema) (key : Key) (stored fresh : Option Record) (e e' : Environment) :
    Outcome → Prop
  | .created record =>
    stored = none ∧ fresh = some record ∧ e'.held schema.table key =
      .ok (some (record.insert Record.revisionAttribute (.int Schema.baseRevision)))
  | .updated previous updates original =>
    stored = some original ∧
      (∃ record, fresh = some record ∧ Exchanges schema original record previous updates) ∧
      ∃ after, e'.held schema.table key = .ok (some after) ∧
        Follows original previous updates after
  | .unchanged =>
    e'.tables = e.tables ∧ (fresh = none ∨ ∃ original record, stored = some original ∧
      fresh = some record ∧
      ∀ name ∈ schema.mutable, Difference.Alike (original.get? name) (record.get? name))

theorem follows_of_apply {schema : Schema} {original fresh after : Record}
    {difference : Difference} {revision : Int64} (hfresh : fresh.Storable)
    (hdifference : Procedure.mutableDifference schema original fresh = some difference)
    (hrevision : original.get? Record.revisionAttribute = some (.int revision))
    (h : difference.changes.apply original = .ok after) :
    Follows original difference.previous difference.updated after where
  revision := by
    have hr := Procedure.revises_of_mutableDifference hfresh hdifference
    have hbefore : original.revision? = some revision := by
      simp [Record.revision?, hrevision, Value.asInt?]
    obtain ⟨next, hnext, hcount⟩ := hr.revision? h hbefore
    exact ⟨revision, next, hrevision, hnext, hcount⟩
  attributes := by
    intro name hname
    have hchange := Difference.get?_changes hdifference name
    rw [if_neg hname] at hchange
    cases hupdated : difference.updated.get? name with
    | some value =>
      rw [hupdated] at hchange
      have houtcome := Changes.outcome_of_apply h hchange
      exact (Except.ok.inj houtcome).symm
    | none =>
      rw [hupdated] at hchange
      cases hprevious : difference.previous.get? name with
      | some value =>
        rw [hprevious] at hchange
        have houtcome := Changes.outcome_of_apply h hchange
        rw [← Except.ok.inj houtcome]
        simp [OrderedMap.contains, hprevious]
      | none =>
        rw [hprevious] at hchange
        rw [Changes.get?_of_apply_of_none h hchange]
        simp [OrderedMap.contains, hprevious]

end Outcome

namespace Procedure

variable {stored : Option Record} {answers : (q : Question) → Except String q.Answer}
  {e e' : Environment} {outcome : Outcome}

-- Where nothing is stored, a creation that succeeds has written the fresh record.
theorem create_eq_ok (hrevision : fresh.get? Record.revisionAttribute = none)
    (hheld : e.held schema.table key = .ok none)
    (h : (create schema key fresh).run.run (Environment.serve answers) e = (.ok outcome, e')) :
    outcome = .created fresh ∧ e.Writes schema.table key
      (fresh.insert Record.revisionAttribute (.int Schema.baseRevision)) e' := by
  rw [create_run hrevision] at h
  simp only [Interaction.run, Environment.serve] at h
  cases hput : e.put schema.table key
      (fresh.insert Record.revisionAttribute (.int Schema.baseRevision)) (some [schema.unique]) with
  | mk reply after =>
    rw [hput] at h
    cases reply with
    | ok =>
      cases h
      exact ⟨rfl, (Environment.put_eq_ok hput).1⟩
    | error error =>
      have hfails : error.isFreshViolation = false :=
        Environment.not_isFreshViolation_of_vacant hheld hput
      simp only [settleCreation, hfails, Bool.and_false] at h
      cases h

theorem settleUpdate_eq_ok {α : Type} {table : String} {changes : Changes} {name : String}
    {n : Int64} {updated a : α}
    (h : Interaction.run (Environment.serve answers)
      (.request (.update table key changes (OrderedMap.insert ∅ name (.int n)))
        fun reply => .done (settleUpdate updated reply)) e = (.ok a, e')) :
    a = updated ∧ ∃ before after, e.held table key = .ok (some before) ∧
      before.get? name = some (.int n) ∧ changes.apply before = .ok after ∧
      e.Writes table key after e' := by
  simp only [Interaction.run, Environment.serve] at h
  cases hupdate : e.update table key changes (some (OrderedMap.insert ∅ name (.int n))) with
  | mk reply e₁ =>
    rw [hupdate] at h
    cases reply with
    | error error => cases h
    | ok after =>
      cases h
      obtain ⟨hwrites, before, hbefore, hexpected, happly⟩ := Environment.update_eq_ok hupdate
      have hget := Environment.revision_of_checkExpected hexpected
      exact ⟨rfl, before, after, hbefore, hget, happly, hwrites⟩

-- A revision that succeeds has found no difference, or has written it over the
-- record that is stored.
theorem revise_eq_ok (hheld : e.held schema.table key = .ok (some original))
    (h : (revise schema key original fresh).run.run (Environment.serve answers) e =
      (.ok outcome, e')) :
    (mutableDifference schema original fresh = none ∧ outcome = .unchanged ∧ e' = e) ∨
    ∃ difference revision after,
      mutableDifference schema original fresh = some difference ∧
      outcome = .updated difference.previous difference.updated original ∧
      original.get? Record.revisionAttribute = some (.int revision) ∧
      difference.changes.apply original = .ok after ∧ e.Writes schema.table key after e' := by
  cases hdifference : mutableDifference schema original fresh with
  | none =>
    rw [revise_run_of_same hdifference] at h
    cases h
    exact .inl ⟨rfl, rfl, rfl⟩
  | some difference =>
    cases hrevision : original.revision? with
    | none =>
      rw [revise_run_of_unrevised hdifference hrevision] at h
      cases h
    | some revision =>
      rw [revise_run hdifference hrevision] at h
      obtain ⟨rfl, before, after, hbefore, hget, happly, hwrites⟩ := settleUpdate_eq_ok h
      rw [hheld] at hbefore
      cases hbefore
      exact .inr ⟨difference, revision, after, rfl, rfl, hget, happly, hwrites⟩

-- What a revision writes can be read back.
theorem storable_of_apply {difference : Difference} {revision : Int64} {after : Record}
    (hfresh : fresh.Storable) (hheld : e.held schema.table key = .ok (some original))
    (hdifference : mutableDifference schema original fresh = some difference)
    (hrevision : original.get? Record.revisionAttribute = some (.int revision))
    (happly : difference.changes.apply original = .ok after) : after.Storable := by
  have hr := revises_of_mutableDifference hfresh hdifference
  have hbefore : original.revision? = some revision := by
    simp [Record.revision?, hrevision, Value.asInt?]
  exact hr.storable happly hbefore (Environment.storable_of_held hheld)

theorem create_tells (hrevision : fresh.get? Record.revisionAttribute = none)
    (hfresh : fresh.Storable) (hheld : e.held schema.table key = .ok none)
    (h : (create schema key fresh).run.run (Environment.serve answers) e = (.ok outcome, e')) :
    outcome.Tells schema key none (some fresh) e e' := by
  obtain ⟨rfl, hwrites⟩ := create_eq_ok hrevision hheld h
  have hdepth : (Value.int Schema.baseRevision).depth ≤ Record.maxValueDepth := Nat.zero_le _
  have hstorable := hfresh.insert Record.revisionAttribute hdepth
  exact ⟨rfl, rfl, hwrites.held_self hstorable⟩

theorem revise_tells (hfresh : fresh.Storable)
    (hheld : e.held schema.table key = .ok (some original))
    (h : (revise schema key original fresh).run.run (Environment.serve answers) e =
      (.ok outcome, e')) :
    outcome.Tells schema key (some original) (some fresh) e e' := by
  rcases revise_eq_ok hheld h with
    ⟨hsame, rfl, rfl⟩ | ⟨difference, revision, after, hdifference, rfl, hget, happly, hwrites⟩
  · exact ⟨rfl, .inr ⟨original, fresh, rfl, rfl, mutableDifference_eq_none_iff.mp hsame⟩⟩
  · have hstorable := storable_of_apply hfresh hheld hdifference hget happly
    refine ⟨rfl, ⟨fresh, rfl, get?_previous_iff hdifference, get?_updated_iff hdifference⟩,
      after, hwrites.held_self hstorable, ?_⟩
    exact Outcome.follows_of_apply hfresh hdifference hget happly

theorem reconcile_tells {stored fresh : Option Record}
    (hrevision : ∀ record ∈ fresh, record.get? Record.revisionAttribute = none)
    (hfresh : ∀ record ∈ fresh, record.Storable)
    (hheld : e.held schema.table key = .ok stored)
    (h : (reconcile schema key stored fresh).run.run (Environment.serve answers) e =
      (.ok outcome, e')) :
    outcome.Tells schema key stored fresh e e' := by
  cases fresh with
  | none =>
    cases stored <;> cases h <;> exact ⟨rfl, .inl rfl⟩
  | some record =>
    have hrecord := hfresh record rfl
    cases stored with
    | none => exact create_tells (hrevision record rfl) hrecord hheld h
    | some original =>
      simp only [reconcile] at h
      split at h
      · rename_i himmutable
        cases h
        refine ⟨rfl, .inr ⟨original, record, rfl, rfl, fun name hname => ?_⟩⟩
        rw [List.isEmpty_iff.mp himmutable] at hname
        cases hname
      · exact revise_tells hrecord hheld h

-- A record is created, then changed: an attribute gets another value, one is gone, and a list
-- has its members in another order, which is no difference.
theorem reconcile_tells_first :
    let key : Key := ⟨List.replicate 32 0, rfl⟩
    let sockets (names : List String) : Value := .list (names.map Value.text)
    let fresh : Record := OrderedMap.ofList
      [("public_key", .bytes [2]), ("alias", .text "a"), ("color", .text "c"),
        ("sockets", sockets ["x", "y"])]
    let other : Record := OrderedMap.ofList
      [("public_key", .bytes [2]), ("alias", .text "b"), ("sockets", sockets ["y", "x"])]
    let original := fresh.insert "_rev" (.int 0)
    let difference : Outcome := .updated
      (OrderedMap.ofList [("alias", .text "a"), ("color", .text "c")])
      (OrderedMap.ofList [("alias", .text "b")]) original
    let revised : Record := OrderedMap.ofList
      [("_rev", .int 1), ("public_key", .bytes [2]), ("alias", .text "b"),
        ("sockets", sockets ["x", "y"])]
    let call (stored : Option Record) (record : Record) :=
      (reconcile Schema.node key stored (some record)).run.run (Environment.serve fun _ => .error "")
    let e := Environment.start Config.minimal 0 ∅
    let first := call none fresh e
    let second := call (some original) other first.2
    first.1 = .ok (.created fresh) ∧
      (Outcome.created fresh).Tells Schema.node key none (some fresh) e first.2 ∧
      second.1 = .ok difference ∧
      difference.Tells Schema.node key (some original) (some other) first.2 second.2 ∧
      second.2.held "nodes" key = .ok (some revised) := by
  intro key sockets fresh other original difference revised call e first second
  have hsockets (names : List String) (hnames : names.length = 2) :
      (sockets names).depth ≤ Record.maxValueDepth := by
    obtain ⟨a, b, rfl⟩ := List.length_eq_two.mp hnames
    simp [sockets, Value.depth, Value.depthAll, Record.maxValueDepth]
  have hfresh : ∀ record ∈ some fresh, record.Storable := by
    rintro record ⟨⟩
    apply Record.storable_ofList
    simp [Value.depth, hsockets]
  have hother : ∀ record ∈ some other, record.Storable := by
    rintro record ⟨⟩
    apply Record.storable_ofList
    simp [Value.depth, hsockets]
  have hunrevised : ∀ record ∈ some fresh, record.get? Record.revisionAttribute = none := by
    rintro record ⟨⟩
    decide +kernel
  have hunrevised' : ∀ record ∈ some other, record.get? Record.revisionAttribute = none := by
    rintro record ⟨⟩
    decide +kernel
  have hcreated : first.1 = .ok (.created fresh) := by decide +kernel
  have hupdated : second.1 = .ok difference := by decide +kernel
  have hrun {run : Except SyncError Outcome × Environment} {outcome : Outcome}
      (h : run.1 = .ok outcome) : run = (.ok outcome, run.2) := Prod.ext h rfl
  have hvacant : e.held Schema.node.table key = .ok none := by decide +kernel
  have hheld : first.2.held Schema.node.table key = .ok (some original) := by decide +kernel
  have hafter : second.2.held "nodes" key = .ok (some revised) := by decide +kernel
  exact ⟨hcreated, reconcile_tells hunrevised hfresh hvacant (hrun hcreated), hupdated,
    reconcile_tells hunrevised' hother hheld (hrun hupdated), hafter⟩

end Procedure

end LightningRecords

import LightningRecords.Proofs.Procedure.Repeat
import LightningRecords.Proofs.Store.Failure

namespace LightningRecords

-- An error that does not speak against what is stored: nothing was unreadable or
-- missing, and of what was expected nothing but the revision was different.
def StoreError.isBenign : StoreError → Bool
  | .corrupted .. | .notFound _ => false
  | .conflict _ (.expectMismatch name) _ => name = Record.revisionAttribute
  | .conflict _ (.freshViolation _) _ | .invalid _ | .capacityExhausted .. | .engine .. | .close ..
  | .io .. => true

def SyncError.isBenign : SyncError → Bool
  | .store error => error.isBenign
  | .retriesExhausted _ last => last.isBenign
  | .invalid .. | .source .. => true

def Benign {α : Type} (x : Except SyncError α) : Prop :=
  ∀ error, x = .error error → error.isBenign = true

namespace Benign

variable {α β : Type}

theorem ok (a : α) : Benign (.ok a) := by
  intro error h
  cases h

theorem error {error : SyncError} (h : error.isBenign = true) :
    Benign (.error error : Except SyncError α) := by
  rintro _ ⟨⟩
  exact h

theorem bind {x : Except SyncError α} {f : α → Except SyncError β} (hx : Benign x)
    (hf : ∀ a, Benign (f a)) : Benign (x >>= f) := by
  intro error h
  rcases bind_eq_error_iff.mp h with h | ⟨a, _, h⟩
  · exact hx error h
  · exact hf a error h

theorem mapM {f : α → Except SyncError β} (hf : ∀ a, Benign (f a)) (items : List α) :
    Benign (items.mapM f) := by
  intro error h
  obtain ⟨item, _, h⟩ := exists_of_mapM_eq_error h
  exact hf item error h

theorem optionMapM {f : α → Except SyncError β} (hf : ∀ a, Benign (f a)) (item : Option α) :
    Benign (item.mapM f) := by
  cases item with
  | none => exact .ok none
  | some a => exact .bind (hf a) fun _ => .ok _

end Benign

namespace Field

theorem benign_require (entity field text : String) : Benign (require entity field text) := by
  unfold require
  split
  · exact .error rfl
  · exact .ok ()

theorem benign_height (entity field : String) (n : UInt32) : Benign (height entity field n) := by
  unfold height
  split
  · exact .error rfl
  · exact .ok ()

theorem benign_hex (entity field text : String) : Benign (hex entity field text) := by
  refine .bind (benign_require entity field text) fun _ => ?_
  split
  · exact .ok _
  · exact .error rfl

theorem benign_index (entity field : String) (n : UInt64) : Benign (index entity field n) := by
  unfold index
  split
  · exact .ok _
  · exact .error rfl

theorem benign_key (schema : Schema) (parts : List String) : Benign (key schema parts) := by
  unfold key
  split
  · exact .ok _
  · exact .error rfl

end Field

theorem ChannelReport.benign_record (report : ChannelReport) (id : String)
    (stored : Option Record) : Benign (report.record id stored) := by
  have hkeys : Benign report.publicKeys := .mapM (fun _ => Field.benign_hex _ _ _) _
  refine .bind hkeys fun publicKeys => ?_
  simp only
  split
  · exact .ok _
  · split
    · exact .bind (Field.benign_hex _ _ _) fun _ => .ok _
    · exact .ok _

theorem LocalChannelReport.benign_record (report : LocalChannelReport)
    (localKey transactionId : Bytes) : Benign (report.record localKey transactionId) :=
  .bind (Field.benign_hex _ _ _) fun _ => .ok _

-- Records that agree in all but their revisions and the named attributes.
def Record.AgreeBut (names : List String) (before after : Record) : Prop :=
  ∀ name, name ≠ Record.revisionAttribute → name ∉ names → after.get? name = before.get? name

theorem Record.AgreeBut.get?_funding {before after : Record}
    (h : before.AgreeBut ["close_height"] after) {name : String}
    (hname : name ∈ ChannelReport.funding) : after.get? name = before.get? name := by
  have hother : ∀ name ∈ ChannelReport.funding,
      name ≠ Record.revisionAttribute ∧ name ∉ ["close_height"] := by decide
  exact h name (hother name hname).1 (hother name hname).2

-- A channel's funding is known as a whole or not at all.
def Record.Funded (record : Record) : Prop :=
  ∀ name ∈ ChannelReport.funding, record.contains name = record.contains "capacity"

-- What bringing a record in line with a fresh one leaves, if there was news.
structure Schema.Revised (schema : Schema) (original fresh after : Record) : Prop where
  news : ¬∀ name ∈ schema.mutable, Difference.Alike (original.get? name) (fresh.get? name)
  settled : schema.Settled (some original) fresh after
  others : Record.AgreeBut schema.mutable original after

namespace Call

-- What identifies the record that a call is about, as a local node sees it.
def identity (localKey : String) : Call → List String
  | .node publicKey => [publicKey]
  | .channel id | .closeChannel id _ => [id]
  | .policy publicKey channelId => [publicKey, channelId]
  | .peer publicKey => [localKey, publicKey]
  | .localChannel publicKey transactionId vout => [publicKey, transactionId, toString vout.toNat]
  | .block id _ => [id]
  | .forwardHtlc htlc =>
    [htlc.publicKey, htlc.inChannel, toString htlc.inPayment.toNat, htlc.outChannel,
     toString htlc.outPayment.toNat]
  | .paymentHtlc htlc => [htlc.publicKey, htlc.outChannel, toString htlc.outPayment.toNat]
  | .receiveHtlc htlc => [htlc.publicKey, htlc.inChannel, toString htlc.inPayment.toNat]

def About (c : Call) (key : Key) : Prop :=
  ∃ localKey, Field.key c.schema (c.identity localKey) = .ok key

theorem eq_of_channel {c : Call} (h : c.schema = .channel) :
    (∃ id, c = .channel id) ∨ ∃ id height, c = .closeChannel id height := by
  cases c with
  | channel id => exact .inl ⟨id, rfl⟩
  | closeChannel id height => exact .inr ⟨id, height, rfl⟩
  | _ =>
    simp only [schema] at h
    exact absurd h (by decide)

-- What a call may make of the record that it has found, or out of nothing.
def Makes : Call → Option Record → Record → Prop
  | .channel _, none, record => record.Funded ∧ record.get? "close_height" = none
  | .channel _, some original, record =>
    original.get? "capacity" = none ∧ original.AgreeBut ChannelReport.funding record ∧
      (original.Funded → ∀ name ∈ ChannelReport.funding, record.contains name = true)
  | .closeChannel .., none, _ => False
  | .closeChannel _ height, some original, record =>
    original.get? "close_height" = none ∧ record.get? "close_height" = some (.ofUInt32 height) ∧
      original.AgreeBut ["close_height"] record
  | .peer _, _, record => ∃ flag, record.get? "is_connected" = some (.bool flag)
  | _, _, _ => True

end Call

-- What a load may find: records that can be stored again and have a revision.
def Revisable (found : Option Record) : Prop :=
  ∀ record ∈ found, record.Storable ∧ ∃ revision, record.revision? = some revision

theorem Revisable.storable {found : Option Record} (h : Revisable found) :
    ∀ record ∈ found, record.Storable := fun record hrecord => (h record hrecord).1

section Shapes

variable {α : Type} (about : Key → Prop) (makes : Option Record → Record → Prop)

-- What is left of a call that behaves as long as the store does: it looks nowhere
-- but under its own key, writes nothing but what it may make of what it has found,
-- and fails only with benign errors.
inductive Behaves : Option Record → Interaction (Except SyncError α) → Prop where
  | done {stored : Option Record} {result : Except SyncError α} (h : Benign result) :
      Behaves stored (.done result)
  | ask {stored : Option Record} {question : Question} {next : Except String question.Answer → _}
      (h : ∀ reply, Behaves stored (next reply)) :
      Behaves stored (.request (.ask question) next)
  | load {stored : Option Record} {table : String} {key : Key}
      {next : Except StoreError (Option Record) → _} (hkey : about key)
      (hok : ∀ found, Revisable found → Behaves found (next (.ok found)))
      (herror : ∀ error, error.isBenign = true → Behaves stored (next (.error error))) :
      Behaves stored (.request (.load table key) next)
  | put {stored : Option Record} {table : String} {key : Key} {record : Record}
      {fresh : List String} {next : Except StoreError Unit → _} (hmakes : makes stored record)
      (h : ∀ reply, (∀ error, reply = .error error → error.isBenign = true) →
        Behaves stored (next reply)) :
      Behaves stored (.request (.put table key record fresh) next)
  | update {stored : Option Record} {table : String} {key : Key} {changes : Changes}
      {expected : Record} {next : Except StoreError Record → _}
      (hmakes : ∀ original ∈ stored, ∀ record, changes.apply original = .ok record →
        makes (some original) record)
      (h : ∀ reply, (∀ error, reply = .error error → error.isBenign = true) →
        Behaves stored (next reply)) :
      Behaves stored (.request (.update table key changes expected) next)

end Shapes

section Steps

variable {α β : Type} {about : Key → Prop} {makes : Option Record → Record → Prop}
  {stored : Option Record} {entity table : String} {question : Question} {key : Key}

theorem Behaves.bind_ofExcept {x : Except SyncError β} {f : β → Procedure α} (hx : Benign x)
    (h : ∀ b, x = .ok b → Behaves about makes stored (f b).run) :
    Behaves about makes stored (Procedure.ofExcept x >>= f).run := by
  cases x with
  | error error => exact .done (.error (hx error rfl))
  | ok b => exact h b rfl

theorem Behaves.bind_ask {f : question.Answer → Procedure α}
    (h : ∀ answer, Behaves about makes stored (f answer).run) :
    Behaves about makes stored (Procedure.ask entity question >>= f).run := by
  refine .ask fun reply => ?_
  cases reply with
  | error message => exact .done (.error rfl)
  | ok answer => exact h answer

theorem Behaves.bind_load {f : Option Record → Procedure α} (hkey : about key)
    (h : ∀ found, Revisable found → Behaves about makes found (f found).run) :
    Behaves about makes stored (Procedure.load table key >>= f).run :=
  .load hkey h fun _ herror => .done (.error herror)

end Steps

namespace Procedure

theorem benign_settleCreation {α : Type} (schema : Schema) (created unchanged : α)
    {reply : Except StoreError Unit} (h : ∀ error, reply = .error error → error.isBenign = true) :
    Benign (settleCreation schema created unchanged reply) := by
  cases reply with
  | ok => exact .ok _
  | error error =>
    simp only [settleCreation]
    split
    · exact .ok _
    · exact .error (h error rfl)

theorem benign_settleUpdate {α : Type} (updated : α) {reply : Except StoreError Record}
    (h : ∀ error, reply = .error error → error.isBenign = true) :
    Benign (settleUpdate updated reply) := by
  cases reply with
  | ok => exact .ok _
  | error error => exact .error (h error rfl)

theorem revised_of_apply {schema : Schema} {original fresh record : Record}
    {difference : Difference} {revision : Int64}
    (hmutable : Record.revisionAttribute ∉ schema.mutable) (hfresh : fresh.Storable)
    (hdifference : mutableDifference schema original fresh = some difference)
    (hrevision : original.revision? = some revision)
    (happly : difference.changes.apply original = .ok record) :
    schema.Revised original fresh record where
  news := by
    intro hsame
    rw [mutableDifference_eq_none_iff.mpr hsame] at hdifference
    cases hdifference
  settled := by
    have hget := Record.get?_of_revision? hrevision
    have hfollows := Outcome.follows_of_apply hfresh hdifference hget happly
    exact Schema.settled_of_follows hmutable
      ⟨get?_previous_iff hdifference, get?_updated_iff hdifference⟩ hfollows
  others := by
    intro name hname hother
    have hr := revises_of_mutableDifference hfresh hdifference
    exact hr.get?_of_not_allowed happly hname hother

section Reconcile

variable {about : Key → Prop} {makes : Option Record → Record → Prop} {schema : Schema} {key : Key}
  {stored fresh : Option Record}

theorem behaves_reconcile (hmutable : Record.revisionAttribute ∉ schema.mutable)
    (hstored : Revisable stored) (hstorable : ∀ record ∈ fresh, record.Storable)
    (hfirst : stored = none → ∀ record ∈ fresh, record.get? Record.revisionAttribute = none ∧
      makes none (record.insert Record.revisionAttribute (.int Schema.baseRevision)))
    (hlater : ∀ original ∈ stored, ∀ built ∈ fresh, ∀ record,
      schema.Revised original built record → makes (some original) record) :
    Behaves about makes stored (reconcile schema key stored fresh).run := by
  cases fresh with
  | none => cases stored <;> exact .done (.ok _)
  | some fresh =>
    cases stored with
    | none =>
      obtain ⟨hrevision, hmakes⟩ := hfirst rfl fresh rfl
      simp only [reconcile, create_run hrevision]
      exact .put hmakes fun _ hreply => .done (benign_settleCreation schema _ _ hreply)
    | some original =>
      obtain ⟨_, revision, hrevision⟩ := hstored original rfl
      simp only [reconcile]
      split
      · exact .done (.ok _)
      · cases hdifference : mutableDifference schema original fresh with
        | none =>
          rw [revise_run_of_same hdifference]
          exact .done (.ok _)
        | some difference =>
          rw [revise_run hdifference hrevision]
          refine .update ?_ fun _ hreply => .done (benign_settleUpdate _ hreply)
          rintro _ ⟨⟩ record happly
          have hfresh := hstorable fresh rfl
          exact hlater original rfl fresh rfl record
            (revised_of_apply hmutable hfresh hdifference hrevision happly)

-- Of most records there is nothing to be said but that their kind is drafted so.
theorem behaves_reconcile_of_drafts (hmutable : Record.revisionAttribute ∉ schema.mutable)
    (hstored : Revisable stored) (hdrafts : ∀ record ∈ fresh, schema.Drafts record)
    (hmakes : ∀ original record, makes original record) :
    Behaves about makes stored (reconcile schema key stored fresh).run :=
  behaves_reconcile hmutable hstored (fun record hrecord => (hdrafts record hrecord).storable)
    (fun _ record hrecord => ⟨(hdrafts record hrecord).revision, hmakes _ _⟩)
    fun _ _ _ _ _ _ => hmakes _ _

end Reconcile

end Procedure

section Records

variable {schema : Schema} {stored : Option Record} {original fresh record : Record}

-- What differs is settled to what is told, and what is no list and does not differ is
-- what is told.
theorem Schema.Settled.get?_eq (h : schema.Settled stored fresh record) {name : String}
    (hname : name ∈ schema.mutable) {value : Value} (hvalue : value.asList? = none)
    (hfresh : fresh.get? name = some value) : record.get? name = some value := by
  rcases h name hname with heq | ⟨heq, halike⟩
  · rw [heq, hfresh]
  · rw [hfresh] at halike
    rcases halike with hsame | ⟨_, items, _, hlist, _⟩
    · rw [heq, hsame]
    · rw [Option.getD_some] at hlist
      rw [hlist] at hvalue
      cases hvalue

theorem PeerReport.get?_record (report : PeerReport) (localKey publicKey : Bytes)
    (stored : Option Record) :
    (report.record localKey publicKey stored).get? "is_connected" = some (.bool true) := by
  simp [record, OrderedMap.ofList]

theorem get?_disconnected? (h : disconnected? stored = some fresh) :
    fresh.get? "is_connected" = some (.bool false) := by
  obtain ⟨original, _, h⟩ := Option.bind_eq_some_iff.mp h
  obtain ⟨_, _, h⟩ := Option.bind_eq_some_iff.mp h
  cases h
  exact OrderedMap.get?_insert_self _ _ _

namespace ChannelReport

variable {report : ChannelReport} {id : String}

-- What a report makes where no capacity is stored: all funding or none.
theorem record_of_unfunded (hstored : stored? stored "capacity" = none)
    (h : report.record id stored = .ok fresh) :
    fresh.get? "close_height" = none ∧
      ((∀ name ∈ funding, fresh.get? name = none) ∨
        ∀ name ∈ funding, ∃ value, fresh.get? name = some value ∧ value.asList? = none) := by
  obtain ⟨publicKeys, _, h⟩ := bind_eq_ok_iff.mp h
  simp only [hstored, Option.isSome_none, Bool.false_eq_true, if_false] at h
  split at h
  · obtain ⟨transactionId, _, h⟩ := bind_eq_ok_iff.mp h
    cases h
    refine ⟨by simp [OrderedMap.ofList], .inr ?_⟩
    simp [funding, Value.asList?, Value.ofUInt32, Value.ofNat]
  · cases h
    refine ⟨by simp [OrderedMap.ofList], .inl ?_⟩
    intro name hname
    exact get?_unfunded hname

theorem funded_of_none (h : ∀ name ∈ funding, record.get? name = none) : record.Funded := by
  intro name hname
  have hcapacity : "capacity" ∈ funding := by simp [funding]
  rw [OrderedMap.contains, OrderedMap.contains, h name hname, h "capacity" hcapacity]

theorem funded_of_contains (h : ∀ name ∈ funding, record.contains name = true) :
    record.Funded := by
  intro name hname
  have hcapacity : "capacity" ∈ funding := by simp [funding]
  rw [h name hname, h "capacity" hcapacity]

theorem makes_first (h : report.record id none = .ok fresh) :
    (Call.channel id).Makes none
      (fresh.insert Record.revisionAttribute (.int Schema.baseRevision)) := by
  have hother : ∀ name ∈ funding, name ≠ Record.revisionAttribute := by decide
  obtain ⟨hclose, hfunding⟩ := record_of_unfunded rfl h
  constructor
  · rcases hfunding with hnone | hsome
    · apply funded_of_none
      intro name hname
      rw [OrderedMap.get?_insert_of_ne _ _ (hother name hname), hnone name hname]
    · apply funded_of_contains
      intro name hname
      obtain ⟨value, hvalue, _⟩ := hsome name hname
      rw [OrderedMap.contains, OrderedMap.get?_insert_of_ne _ _ (hother name hname), hvalue]
      rfl
  · rw [OrderedMap.get?_insert_of_ne _ _ (by decide), hclose]

-- Where a capacity is stored there is no news.
theorem unfunded_of_news (h : report.record id (some original) = .ok fresh)
    (hnews : ¬∀ name ∈ Schema.channel.mutable,
      Difference.Alike (original.get? name) (fresh.get? name)) :
    original.get? "capacity" = none := by
  by_contra hcapacity
  obtain ⟨publicKeys, hkeys, _⟩ := bind_eq_ok_iff.mp h
  have hsome : (original.get? "capacity").isSome = true :=
    Option.isSome_iff_ne_none.mpr hcapacity
  obtain ⟨again, hagain, halike⟩ : ∃ again, report.record id (some original) = .ok again ∧
      ∀ name ∈ Schema.channel.mutable, Difference.Alike (original.get? name) (again.get? name) :=
    again_of_funded hkeys hsome
  rw [h] at hagain
  cases hagain
  exact hnews halike

theorem makes_later (h : report.record id (some original) = .ok fresh)
    (hrevised : Schema.channel.Revised original fresh record) :
    (Call.channel id).Makes (some original) record := by
  have hcapacity := unfunded_of_news h hrevised.news
  refine ⟨hcapacity, hrevised.others, fun hfunded name hname => ?_⟩
  have hstored : stored? (some original) "capacity" = none := hcapacity
  rcases (record_of_unfunded hstored h).2 with hnone | hsome
  · refine absurd (fun other hother => ?_) hrevised.news
    have hunknown : original.get? other = none := by
      have hsame := hfunded other hother
      rw [OrderedMap.contains, OrderedMap.contains, hcapacity] at hsame
      simpa using hsame
    rw [hunknown, hnone other hother]
    exact .refl none
  · obtain ⟨value, hvalue, hlist⟩ := hsome name hname
    rw [OrderedMap.contains, hrevised.settled.get?_eq hname hlist hvalue]
    rfl

end ChannelReport

end Records

namespace Procedure

theorem behaves_node (publicKey : String) :
    Behaves (Call.node publicKey).About (Call.node publicKey).Makes none (node publicKey).run := by
  refine .bind_ofExcept (Field.benign_hex _ _ _) fun bytes _ =>
    .bind_ofExcept (Field.benign_key _ _) fun key hkey =>
    .bind_load ⟨publicKey, hkey⟩ fun stored hstored => .bind_ask fun report =>
    behaves_reconcile_of_drafts (by decide) hstored ?_ fun _ _ => trivial
  intro record hrecord
  obtain ⟨report, _, rfl⟩ := Option.map_eq_some_iff.mp hrecord
  exact report.drafts_record hstored.storable bytes

theorem behaves_channel (id : String) :
    Behaves (Call.channel id).About (Call.channel id).Makes none (channel id).run := by
  refine .bind_ofExcept (Field.benign_require _ _ _) fun _ _ =>
    .bind_ofExcept (Field.benign_key _ _) fun key hkey =>
    .bind_load ⟨id, hkey⟩ fun stored hstored => .bind_ask fun report =>
    .bind_ofExcept (.optionMapM (fun report => report.benign_record id stored) report)
      fun fresh hfresh => ?_
  have hdrafts : ∀ built ∈ fresh, Schema.channel.Drafts built := by
    intro built hbuilt
    obtain ⟨report, _, hrecord⟩ := exists_of_optionMapM_eq_ok hfresh built hbuilt
    exact ChannelReport.drafts_record hstored.storable hrecord
  refine behaves_reconcile (by decide) hstored (fun built hbuilt => (hdrafts built hbuilt).storable)
    ?_ ?_
  · rintro rfl built hbuilt
    obtain ⟨report, _, hrecord⟩ := exists_of_optionMapM_eq_ok hfresh built hbuilt
    exact ⟨(hdrafts built hbuilt).revision, ChannelReport.makes_first hrecord⟩
  · rintro original ⟨⟩ built hbuilt record hrevised
    obtain ⟨report, _, hrecord⟩ := exists_of_optionMapM_eq_ok hfresh built hbuilt
    exact ChannelReport.makes_later hrecord hrevised

-- The height is set where there is none.
theorem makes_closing {id : String} {height : UInt32} {original record : Record}
    (hopen : original.contains "close_height" = false)
    (happly : Changes.apply (Changes.bumpRevision
      (OrderedMap.insert ∅ "close_height" (.set (.ofUInt32 height)))) original = .ok record) :
    (Call.closeChannel id height).Makes (some original) record := by
  refine ⟨by simpa [OrderedMap.contains] using hopen, ?_, ?_⟩
  · have hset : (Changes.bumpRevision (OrderedMap.insert ∅ "close_height"
        (.set (.ofUInt32 height)))).get? "close_height" = some (.set (.ofUInt32 height)) := by
      simp [Changes.bumpRevision, Record.revisionAttribute]
    exact (Except.ok.inj (Changes.outcome_of_apply happly hset)).symm
  · intro name hname hother
    apply Changes.get?_of_apply_of_none happly
    rw [List.mem_singleton] at hother
    simp [Changes.bumpRevision, hname, hother]

theorem behaves_closeChannel (id : String) (height : UInt32) :
    Behaves (Call.closeChannel id height).About (Call.closeChannel id height).Makes none
      (closeChannel id height).run := by
  refine .bind_ofExcept (Field.benign_require _ _ _) fun _ _ =>
    .bind_ofExcept (Field.benign_height _ _ _) fun _ _ =>
    .bind_ofExcept (Field.benign_key _ _) fun key hkey =>
    .bind_load ⟨id, hkey⟩ fun stored hstored => ?_
  cases stored with
  | none => exact .done (.ok none)
  | some original =>
    obtain ⟨_, revision, hrevision⟩ := hstored original rfl
    simp only
    split
    · exact .done (.ok _)
    · rename_i hopen
      have hexpected : expectRevision Schema.channel.table original =
          .ok (OrderedMap.insert ∅ Record.revisionAttribute (.int revision)) := by
        simp only [expectRevision, hrevision]
      rw [hexpected]
      refine .bind_ofExcept (.ok _) fun expected _ => ?_
      rw [update_run]
      refine .update ?_ fun _ hreply => .done (benign_settleUpdate _ hreply)
      rintro _ ⟨⟩ record happly
      exact makes_closing (by simpa using hopen) happly

theorem behaves_policy (publicKey channelId : String) :
    Behaves (Call.policy publicKey channelId).About (Call.policy publicKey channelId).Makes none
      (policy publicKey channelId).run := by
  refine .bind_ofExcept (Field.benign_hex _ _ _) fun bytes _ =>
    .bind_ofExcept (Field.benign_require _ _ _) fun _ _ =>
    .bind_ofExcept (Field.benign_key _ _) fun key hkey =>
    .bind_load ⟨publicKey, hkey⟩ fun stored hstored => .bind_ask fun report =>
    behaves_reconcile_of_drafts (by decide) hstored ?_ fun _ _ => trivial
  intro record hrecord
  obtain ⟨policy, _, rfl⟩ := Option.map_eq_some_iff.mp hrecord
  exact policy.drafts_record channelId bytes

theorem behaves_peer (publicKey : String) :
    Behaves (Call.peer publicKey).About (Call.peer publicKey).Makes none (peer publicKey).run := by
  refine .bind_ofExcept (Field.benign_hex _ _ _) fun bytes _ => .bind_ask fun localKey =>
    .bind_ofExcept (Field.benign_hex _ _ _) fun localBytes _ =>
    .bind_ofExcept (Field.benign_key _ _) fun key hkey =>
    .bind_load ⟨localKey, hkey⟩ fun stored hstored => .bind_ask fun peers => ?_
  have hname : "is_connected" ∈ Schema.peer.mutable := by decide
  cases peers.find? fun peer => peer.publicKey = publicKey with
  | some report =>
    have hdrafts := report.drafts_record hstored.storable localBytes bytes
    have hconnected := report.get?_record localBytes bytes stored
    refine behaves_reconcile (by decide) hstored ?_ ?_ ?_
    · rintro _ ⟨⟩
      exact hdrafts.storable
    · rintro rfl _ ⟨⟩
      refine ⟨hdrafts.revision, true, ?_⟩
      rw [OrderedMap.get?_insert_of_ne _ _ (by decide), hconnected]
    · rintro original ⟨⟩ _ ⟨⟩ record hrevised
      exact ⟨true, hrevised.settled.get?_eq hname rfl hconnected⟩
  | none =>
    refine behaves_reconcile (by decide) hstored
      (fun record => storable_disconnected? hstored.storable) ?_ ?_
    · rintro rfl record hrecord
      cases hrecord
    · rintro original ⟨⟩ built hbuilt record hrevised
      exact ⟨false, hrevised.settled.get?_eq hname rfl (get?_disconnected? hbuilt)⟩

theorem behaves_localChannel (publicKey transactionId : String) (vout : UInt32) :
    Behaves (Call.localChannel publicKey transactionId vout).About
      (Call.localChannel publicKey transactionId vout).Makes none
      (localChannel publicKey transactionId vout).run := by
  refine .bind_ofExcept (Field.benign_hex _ _ _) fun localBytes _ =>
    .bind_ofExcept (Field.benign_hex _ _ _) fun transaction _ =>
    .bind_ofExcept (Field.benign_key _ _) fun key hkey =>
    .bind_load ⟨publicKey, hkey⟩ fun stored hstored => .bind_ask fun channels =>
    .bind_ofExcept (.optionMapM (fun report => report.benign_record localBytes transaction) _)
      fun fresh hfresh =>
    behaves_reconcile_of_drafts (by decide) hstored ?_ fun _ _ => trivial
  intro built hbuilt
  obtain ⟨report, _, hrecord⟩ := exists_of_optionMapM_eq_ok hfresh built hbuilt
  exact LocalChannelReport.drafts_record hrecord

theorem behaves_block (id : String) (height : UInt32) :
    Behaves (Call.block id height).About (Call.block id height).Makes none
      (block id height).run := by
  refine .bind_ofExcept (Field.benign_hex _ _ _) fun bytes _ =>
    .bind_ofExcept (Field.benign_key _ _) fun key hkey =>
    .bind_load ⟨id, hkey⟩ fun stored hstored =>
    behaves_reconcile_of_drafts (by decide) hstored ?_ fun _ _ => trivial
  rintro _ ⟨⟩
  exact drafts_block height bytes

theorem behaves_forwardHtlc (htlc : ForwardHtlc) :
    Behaves (Call.forwardHtlc htlc).About (Call.forwardHtlc htlc).Makes none
      (forwardHtlc htlc).run := by
  refine .bind_ofExcept (Field.benign_hex _ _ _) fun publicKey _ =>
    .bind_ofExcept (Field.benign_require _ _ _) fun _ _ =>
    .bind_ofExcept (Field.benign_require _ _ _) fun _ _ =>
    .bind_ofExcept (Field.benign_require _ _ _) fun _ _ =>
    .bind_ofExcept (Field.benign_index _ _ _) fun inPayment _ =>
    .bind_ofExcept (Field.benign_index _ _ _) fun outPayment _ =>
    .bind_ofExcept (Field.benign_key _ _) fun key hkey =>
    .bind_load ⟨htlc.publicKey, hkey⟩ fun stored hstored =>
    behaves_reconcile_of_drafts (by decide) hstored ?_ fun _ _ => trivial
  rintro _ ⟨⟩
  exact htlc.drafts_record hstored.storable publicKey inPayment outPayment

theorem behaves_paymentHtlc (htlc : PaymentHtlc) :
    Behaves (Call.paymentHtlc htlc).About (Call.paymentHtlc htlc).Makes none
      (paymentHtlc htlc).run := by
  refine .bind_ofExcept (Field.benign_hex _ _ _) fun publicKey _ =>
    .bind_ofExcept (Field.benign_require _ _ _) fun _ _ =>
    .bind_ofExcept (Field.benign_require _ _ _) fun _ _ =>
    .bind_ofExcept (Field.benign_index _ _ _) fun outPayment _ =>
    .bind_ofExcept (Field.benign_key _ _) fun key hkey =>
    .bind_load ⟨htlc.publicKey, hkey⟩ fun stored hstored =>
    behaves_reconcile_of_drafts (by decide) hstored ?_ fun _ _ => trivial
  rintro _ ⟨⟩
  exact htlc.drafts_record hstored.storable publicKey outPayment

theorem behaves_receiveHtlc (htlc : ReceiveHtlc) :
    Behaves (Call.receiveHtlc htlc).About (Call.receiveHtlc htlc).Makes none
      (receiveHtlc htlc).run := by
  refine .bind_ofExcept (Field.benign_hex _ _ _) fun publicKey _ =>
    .bind_ofExcept (Field.benign_require _ _ _) fun _ _ =>
    .bind_ofExcept (Field.benign_require _ _ _) fun _ _ =>
    .bind_ofExcept (Field.benign_index _ _ _) fun inPayment _ =>
    .bind_ofExcept (Field.benign_key _ _) fun key hkey =>
    .bind_load ⟨htlc.publicKey, hkey⟩ fun stored hstored =>
    behaves_reconcile_of_drafts (by decide) hstored ?_ fun _ _ => trivial
  rintro _ ⟨⟩
  exact htlc.drafts_record publicKey inPayment

end Procedure

theorem Call.behaves : (c : Call) → Behaves c.About c.Makes none c.procedure.run
  | .node publicKey => Procedure.behaves_node publicKey
  | .channel id => Procedure.behaves_channel id
  | .closeChannel id height => Procedure.behaves_closeChannel id height
  | .policy publicKey channelId => Procedure.behaves_policy publicKey channelId
  | .peer publicKey => Procedure.behaves_peer publicKey
  | .localChannel publicKey transactionId vout =>
    Procedure.behaves_localChannel publicKey transactionId vout
  | .block id height => Procedure.behaves_block id height
  | .forwardHtlc htlc => Procedure.behaves_forwardHtlc htlc
  | .paymentHtlc htlc => Procedure.behaves_paymentHtlc htlc
  | .receiveHtlc htlc => Procedure.behaves_receiveHtlc htlc

end LightningRecords

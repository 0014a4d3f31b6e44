import LightningRecords.Proofs.Procedure.Observes

namespace LightningRecords

-- A procedure with its arguments.
inductive Call where
  | node (publicKey : String)
  | channel (id : String)
  | closeChannel (id : String) (height : UInt32)
  | policy (publicKey channelId : String)
  | peer (publicKey : String)
  | localChannel (publicKey transactionId : String) (vout : UInt32)
  | block (id : String) (height : UInt32)
  | forwardHtlc (htlc : ForwardHtlc)
  | paymentHtlc (htlc : PaymentHtlc)
  | receiveHtlc (htlc : ReceiveHtlc)

-- What a call tells to have done to the record it is about.
inductive Effect where
  | created (record : Record)
  | updated (previous updates original : Record)
  | closed

namespace Call

def schema : Call → Schema
  | .node _ => .node
  | .channel _ | .closeChannel .. => .channel
  | .policy .. => .policy
  | .peer _ => .peer
  | .localChannel .. => .localChannel
  | .block .. => .block
  | .forwardHtlc _ => .forwardHtlc
  | .paymentHtlc _ => .paymentHtlc
  | .receiveHtlc _ => .receiveHtlc

abbrev Result : Call → Type
  | .closeChannel .. => Option ClosedChannel
  | _ => Outcome

theorem schema_mem (c : Call) : c.schema ∈ Schema.all := by
  cases c <;> simp [schema, Schema.all]

def procedure : (c : Call) → Procedure c.Result
  | .node publicKey => Procedure.node publicKey
  | .channel id => Procedure.channel id
  | .closeChannel id height => Procedure.closeChannel id height
  | .policy publicKey channelId => Procedure.policy publicKey channelId
  | .peer publicKey => Procedure.peer publicKey
  | .localChannel publicKey transactionId vout =>
    Procedure.localChannel publicKey transactionId vout
  | .block id height => Procedure.block id height
  | .forwardHtlc htlc => Procedure.forwardHtlc htlc
  | .paymentHtlc htlc => Procedure.paymentHtlc htlc
  | .receiveHtlc htlc => Procedure.receiveHtlc htlc

def ofOutcome : Outcome → Option Effect
  | .created record => some (.created record)
  | .updated previous updates original => some (.updated previous updates original)
  | .unchanged => none

-- A channel that is not stored, or was closed before, stays as it is.
def ofClosing : Option ClosedChannel → Option Effect
  | some ⟨false, _⟩ => some .closed
  | _ => none

def effect? : (c : Call) → c.Result → Option Effect
  | .closeChannel .. => ofClosing
  | .node _ | .channel _ | .policy .. | .peer _ | .localChannel .. | .block .. | .forwardHtlc _
  | .paymentHtlc _ | .receiveHtlc _ => ofOutcome

end Call

-- Attributes that a record of a kind may change after it was created.
def Schema.Varies (schema : Schema) (name : String) : Prop :=
  name ∈ schema.mutable ∨ schema = .channel ∧ name = "close_height"

instance (schema : Schema) (name : String) : Decidable (schema.Varies name) :=
  inferInstanceAs (Decidable (_ ∨ _ ∧ _))

-- Whether an effect is one on a record that was there.
def Effect.Revises (original : Record) : Effect → Prop
  | .created _ => False
  | .updated _ _ before => before = original
  | .closed => True

section Shapes

variable {α : Type} (schema : Schema) (effect? : α → Option Effect)

-- What a call may do once it has loaded what is stored under a key: it ends, or
-- writes once, over no other record than the one it has loaded, and then ends.
inductive Settles (key : Key) (stored : Option Record) :
    Interaction (Except SyncError α) → Prop where
  | fail (error : SyncError) : Settles key stored (.done (.error error))
  | idle {result : α} (h : effect? result = none) : Settles key stored (.done (.ok result))
  | ask {question : Question} {next : Except String question.Answer → _}
      (h : ∀ reply, Settles key stored (next reply)) :
      Settles key stored (.request (.ask question) next)
  | create {fresh : Record} {created unchanged : α} (hstored : stored = none)
      (hfresh : schema.Drafts fresh) (hcreated : effect? created = some (.created fresh))
      (hunchanged : effect? unchanged = none) :
      Settles key stored <| .request
        (.put schema.table key (fresh.insert Record.revisionAttribute (.int Schema.baseRevision))
          [schema.unique])
        fun reply => .done (Procedure.settleCreation schema created unchanged reply)
  | update {original : Record} {revision : Int64} {changes : Changes} {updated : α}
      {effect : Effect} (hstored : stored = some original)
      (hrevision : original.revision? = some revision)
      (hchanges : changes.Revises schema.Varies) (hupdated : effect? updated = some effect)
      (heffect : effect.Revises original) :
      Settles key stored <| .request
        (.update schema.table key changes
          (OrderedMap.insert ∅ Record.revisionAttribute (.int revision)))
        fun reply => .done (Procedure.settleUpdate updated reply)

-- What a call may do before: it loads what is stored under one key.
inductive Prepares : Interaction (Except SyncError α) → Prop where
  | fail (error : SyncError) : Prepares (.done (.error error))
  | ask {question : Question} {next : Except String question.Answer → _}
      (h : ∀ reply, Prepares (next reply)) : Prepares (.request (.ask question) next)
  | load {key : Key} {next : Except StoreError (Option Record) → _}
      (hok : ∀ stored : Option Record, (∀ record ∈ stored, record.Storable) →
        Settles schema effect? key stored (next (.ok stored)))
      (herror : ∀ error, next (.error error) = .done (.error (.store error))) :
      Prepares (.request (.load schema.table key) next)

end Shapes

section Steps

variable {α β : Type} {schema : Schema} {effect? : α → Option Effect} {key : Key}
  {stored : Option Record} {entity : String} {question : Question}

theorem Settles.bind_ofExcept {x : Except SyncError β} {f : β → Procedure α}
    (h : ∀ b, x = .ok b → Settles schema effect? key stored (f b).run) :
    Settles schema effect? key stored (Procedure.ofExcept x >>= f).run := by
  cases x with
  | error error => exact .fail error
  | ok b => exact h b rfl

theorem Settles.bind_ask {f : question.Answer → Procedure α}
    (h : ∀ answer, Settles schema effect? key stored (f answer).run) :
    Settles schema effect? key stored (Procedure.ask entity question >>= f).run := by
  refine .ask fun reply => ?_
  cases reply with
  | error message => exact .fail (.source entity message)
  | ok answer => exact h answer

theorem Prepares.bind_ofExcept {x : Except SyncError β} {f : β → Procedure α}
    (h : ∀ b, x = .ok b → Prepares schema effect? (f b).run) :
    Prepares schema effect? (Procedure.ofExcept x >>= f).run := by
  cases x with
  | error error => exact .fail error
  | ok b => exact h b rfl

theorem Prepares.bind_ask {f : question.Answer → Procedure α}
    (h : ∀ answer, Prepares schema effect? (f answer).run) :
    Prepares schema effect? (Procedure.ask entity question >>= f).run := by
  refine .ask fun reply => ?_
  cases reply with
  | error message => exact .fail (.source entity message)
  | ok answer => exact h answer

theorem Prepares.bind_load {f : Option Record → Procedure α}
    (h : ∀ stored : Option Record, (∀ record ∈ stored, record.Storable) →
      Settles schema effect? key stored (f stored).run) :
    Prepares schema effect? (Procedure.load schema.table key >>= f).run :=
  .load h fun _ => rfl

end Steps

namespace Procedure

theorem settles_reconcile (schema : Schema) (key : Key) {stored fresh : Option Record}
    (hstorable : ∀ record ∈ fresh, record.Storable)
    (hfirst : stored = none → ∀ record ∈ fresh, schema.Drafts record) :
    Settles schema Call.ofOutcome key stored (reconcile schema key stored fresh).run := by
  cases fresh with
  | none => cases stored <;> exact .idle rfl
  | some fresh =>
    have hfresh := hstorable fresh rfl
    cases stored with
    | none =>
      have hdrafts := hfirst rfl fresh rfl
      simp only [reconcile, create_run hdrafts.revision]
      exact .create rfl hdrafts rfl rfl
    | some original =>
      simp only [reconcile]
      split
      · exact .idle rfl
      · cases hdifference : mutableDifference schema original fresh with
        | none =>
          rw [revise_run_of_same hdifference]
          exact .idle rfl
        | some difference =>
          cases hrevision : original.revision? with
          | none =>
            rw [revise_run_of_unrevised hdifference hrevision]
            exact .fail _
          | some revision =>
            rw [revise_run hdifference hrevision]
            have hr := revises_of_mutableDifference hfresh hdifference
            exact .update rfl hrevision (hr.mono fun _ => .inl) rfl rfl

theorem Reconciles.settles {schema : Schema} {key : Key} {f : Option Record → Procedure Outcome}
    (h : Reconciles schema key f) {stored : Option Record}
    (hstored : ∀ record ∈ stored, record.Storable) :
    Settles schema Call.ofOutcome key stored (f stored).run := by
  induction h with
  | ask _ ih => exact .bind_ask ih
  | build hsteady =>
    refine .bind_ofExcept fun fresh hfresh => settles_reconcile schema key ?_ ?_
    · rintro record rfl
      exact hsteady.storable stored record hstored hfresh
    · rintro rfl record rfl
      exact hsteady.drafts record hfresh

theorem Observes.prepares {schema : Schema} {p : Procedure Outcome} (h : Observes schema p) :
    Prepares schema Call.ofOutcome p.run := by
  induction h with
  | fail error => exact .fail error
  | ask _ ih => exact .bind_ask ih
  | load h => exact .bind_load fun _ => h.settles

theorem expectRevision_eq_ok {table : String} {original expected : Record}
    (h : expectRevision table original = .ok expected) :
    ∃ revision, original.revision? = some revision ∧
      expected = OrderedMap.insert ∅ Record.revisionAttribute (.int revision) := by
  simp only [expectRevision] at h
  split at h
  · rename_i revision hrevision
    cases h
    exact ⟨revision, hrevision, rfl⟩
  · cases h

theorem revises_closing (height : UInt32) :
    Changes.Revises (Changes.bumpRevision
      (OrderedMap.insert ∅ "close_height" (.set (.ofUInt32 height)))) Schema.channel.Varies where
  counts := OrderedMap.get?_insert_self _ _ _
  assigns := by
    intro name change hchange hname
    rw [Changes.bumpRevision, OrderedMap.get?_insert_of_ne _ _ hname, OrderedMap.get?_insert]
      at hchange
    split at hchange
    · rename_i heq
      cases hchange
      exact ⟨.inr ⟨rfl, Std.LawfulEqCmp.eq_of_compare heq⟩, .inr ⟨_, rfl, Nat.zero_le _⟩⟩
    · cases hchange

theorem update_run {α : Type} {table : String} {key : Key} {changes : Changes} {expected : Record}
    (updated : α) :
    (update table key changes expected >>= fun _ => pure updated).run =
      .request (.update table key changes expected) fun reply =>
        .done (settleUpdate updated reply) := by
  refine congrArg (Interaction.request _) (funext fun reply => ?_)
  cases reply <;> rfl

-- The height is set where there is none, over the record that was loaded.
theorem prepares_closeChannel (id : String) (height : UInt32) :
    Prepares .channel Call.ofClosing (closeChannel id height).run := by
  refine .bind_ofExcept fun _ _ => .bind_ofExcept fun _ _ => .bind_ofExcept fun key _ =>
    .bind_load fun stored hstored => ?_
  cases stored with
  | none => exact .idle rfl
  | some original =>
    simp only
    split
    · exact .idle rfl
    · refine .bind_ofExcept fun expected hexpected => ?_
      obtain ⟨revision, hrevision, rfl⟩ := expectRevision_eq_ok hexpected
      rw [update_run]
      exact .update rfl hrevision (revises_closing height) rfl trivial

end Procedure

theorem Call.prepares : (c : Call) → Prepares c.schema c.effect? c.procedure.run
  | .node publicKey => (Procedure.observes_node publicKey).prepares
  | .channel id => (Procedure.observes_channel id).prepares
  | .closeChannel id height => Procedure.prepares_closeChannel id height
  | .policy publicKey channelId => (Procedure.observes_policy publicKey channelId).prepares
  | .peer publicKey => (Procedure.observes_peer publicKey).prepares
  | .localChannel publicKey transactionId vout =>
    (Procedure.observes_localChannel publicKey transactionId vout).prepares
  | .block id height => (Procedure.observes_block id height).prepares
  | .forwardHtlc htlc => (Procedure.observes_forwardHtlc htlc).prepares
  | .paymentHtlc htlc => (Procedure.observes_paymentHtlc htlc).prepares
  | .receiveHtlc htlc => (Procedure.observes_receiveHtlc htlc).prepares

end LightningRecords

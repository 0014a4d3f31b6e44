import LightningRecords.Procedure.Htlc
import LightningRecords.Procedure.Local
import LightningRecords.Proofs.Procedure.Steady

namespace LightningRecords

namespace Procedure

-- What a procedure does with what is stored under a key: it may ask more, and then
-- reconciles it with a record that is steadily made of it.
inductive Reconciles (schema : Schema) (key : Key) : (Option Record → Procedure Outcome) → Prop where
  | ask {entity : String} {question : Question}
      {f : Option Record → question.Answer → Procedure Outcome}
      (h : ∀ answer, Reconciles schema key fun stored => f stored answer) :
      Reconciles schema key fun stored => Procedure.ask entity question >>= f stored
  | build {build : Option Record → Except SyncError (Option Record)}
      (hsteady : schema.Steady build) :
      Reconciles schema key fun stored =>
        ofExcept (build stored) >>= reconcile schema key stored

-- What a procedure does as a whole: it fails, or asks, or loads what is stored under
-- one key to reconcile it.
inductive Observes (schema : Schema) : Procedure Outcome → Prop where
  | fail (error : SyncError) : Observes schema (ofExcept (.error error))
  | ask {entity : String} {question : Question} {f : question.Answer → Procedure Outcome}
      (h : ∀ answer, Observes schema (f answer)) :
      Observes schema (Procedure.ask entity question >>= f)
  | load {key : Key} {f : Option Record → Procedure Outcome} (h : Reconciles schema key f) :
      Observes schema (Procedure.load schema.table key >>= f)

theorem Reconciles.of_steady {schema : Schema} {key : Key}
    {fresh : Option Record → Option Record}
    (hsteady : schema.Steady fun stored => .ok (fresh stored)) :
    Reconciles schema key fun stored => reconcile schema key stored (fresh stored) :=
  .build hsteady

theorem Observes.bind_ofExcept {schema : Schema} {β : Type} {x : Except SyncError β}
    {f : β → Procedure Outcome} (h : ∀ b, x = .ok b → Observes schema (f b)) :
    Observes schema (ofExcept x >>= f) := by
  cases x with
  | error error => exact .fail error
  | ok b => exact h b rfl

theorem observes_node (publicKey : String) : Observes .node (node publicKey) := by
  refine .bind_ofExcept fun bytes _ => .bind_ofExcept fun key _ => .load <| .ask fun report => ?_
  apply Reconciles.of_steady
  cases report with
  | none => exact Schema.Steady.idle
  | some report =>
    exact .of_lasts (fun _ hstored => report.drafts_record hstored bytes)
      (report.lasts_record bytes)

theorem observes_channel (id : String) : Observes .channel (channel id) := by
  refine .bind_ofExcept fun _ _ => .bind_ofExcept fun key _ => .load <| .ask fun report =>
    .build ?_
  cases report with
  | none => exact Schema.Steady.idle
  | some report =>
    refine .of_drafts ?_ ?_
    · intro stored fresh hstored hbuild
      obtain ⟨record, hrecord, hfresh⟩ := bind_eq_ok_iff.mp hbuild
      cases hfresh
      exact ChannelReport.drafts_record hstored hrecord
    · intro stored fresh after hbuild hsettled
      obtain ⟨record, hrecord, hfresh⟩ := bind_eq_ok_iff.mp hbuild
      cases hfresh
      obtain ⟨again, hagain, halike⟩ := ChannelReport.again_record hrecord hsettled
      refine ⟨again, ?_, halike⟩
      simp only [Option.mapM_some, hagain]
      rfl

theorem observes_policy (publicKey channelId : String) :
    Observes .policy (policy publicKey channelId) := by
  refine .bind_ofExcept fun bytes _ => .bind_ofExcept fun _ _ => .bind_ofExcept fun key _ =>
    .load <| .ask fun report => ?_
  apply Reconciles.of_steady
  cases report with
  | none => exact Schema.Steady.idle
  | some report =>
    refine .of_drafts ?_ ?_
    · intro stored fresh _ hbuild
      obtain ⟨policy, _, hfresh⟩ := Option.map_eq_some_iff.mp (Except.ok.inj hbuild)
      cases hfresh
      exact policy.drafts_record channelId bytes
    · intro stored fresh after hbuild hsettled
      obtain ⟨policy, hpolicy, hfresh⟩ := Option.map_eq_some_iff.mp (Except.ok.inj hbuild)
      cases hfresh
      refine ⟨policy.record channelId bytes, ?_, fun _ hname => hsettled.alike hname⟩
      have hagain : PolicyReport.ofChannel? report publicKey (some after) = some policy :=
        PolicyReport.ofChannel?_some hpolicy
      simp only [Option.bind_some, hagain, Option.map_some]

-- A peer that is gone was stored before: its record is never a first one.
theorem steady_disconnected : Schema.peer.Steady fun stored => .ok (disconnected? stored) where
  storable := fun _ _ hstored hbuild => storable_disconnected? hstored (Except.ok.inj hbuild)
  drafts := by
    intro fresh hbuild
    cases hbuild
  again := by
    intro stored fresh after hbuild hsettled
    refine ⟨none, ?_, by simp⟩
    rw [again_disconnected? (Except.ok.inj hbuild) hsettled]

theorem observes_peer (publicKey : String) : Observes .peer (peer publicKey) := by
  refine .bind_ofExcept fun bytes _ => .ask fun localKey => .bind_ofExcept fun localBytes _ =>
    .bind_ofExcept fun key _ => .load <| .ask fun peers => ?_
  apply Reconciles.of_steady
  cases peers.find? fun peer => peer.publicKey = publicKey with
  | none => exact steady_disconnected
  | some report =>
    exact .of_lasts (fun _ hstored => report.drafts_record hstored localBytes bytes)
      (report.lasts_record localBytes bytes)

theorem observes_localChannel (publicKey transactionId : String) (vout : UInt32) :
    Observes .localChannel (localChannel publicKey transactionId vout) := by
  refine .bind_ofExcept fun localBytes _ => .bind_ofExcept fun transaction _ =>
    .bind_ofExcept fun key _ => .load <| .ask fun channels => .build (.const fun fresh hfresh => ?_)
  cases hreport : channels.find? fun channel =>
      channel.transactionId = transactionId && channel.transactionVout = vout with
  | none =>
    rw [hreport] at hfresh
    cases hfresh
  | some report =>
    rw [hreport] at hfresh
    obtain ⟨built, hbuilt, hrecord⟩ := bind_eq_ok_iff.mp hfresh
    cases hrecord
    exact LocalChannelReport.drafts_record hbuilt

theorem observes_block (id : String) (height : UInt32) : Observes .block (block id height) := by
  refine .bind_ofExcept fun bytes _ => .bind_ofExcept fun key _ => .load ?_
  apply Reconciles.of_steady
  exact .const fun fresh hfresh => by cases hfresh; exact drafts_block height bytes

theorem observes_forwardHtlc (htlc : ForwardHtlc) : Observes .forwardHtlc (forwardHtlc htlc) := by
  refine .bind_ofExcept fun publicKey _ => .bind_ofExcept fun _ _ => .bind_ofExcept fun _ _ =>
    .bind_ofExcept fun _ _ => .bind_ofExcept fun inPayment _ => .bind_ofExcept fun outPayment _ =>
    .bind_ofExcept fun key _ => .load ?_
  apply Reconciles.of_steady
  exact .of_lasts (fun _ hstored => htlc.drafts_record hstored publicKey inPayment outPayment)
    (htlc.lasts_record publicKey inPayment outPayment)

theorem observes_paymentHtlc (htlc : PaymentHtlc) : Observes .paymentHtlc (paymentHtlc htlc) := by
  refine .bind_ofExcept fun publicKey _ => .bind_ofExcept fun _ _ => .bind_ofExcept fun _ _ =>
    .bind_ofExcept fun outPayment _ => .bind_ofExcept fun key _ => .load ?_
  apply Reconciles.of_steady
  exact .of_lasts (fun _ hstored => htlc.drafts_record hstored publicKey outPayment)
    (htlc.lasts_record publicKey outPayment)

theorem observes_receiveHtlc (htlc : ReceiveHtlc) : Observes .receiveHtlc (receiveHtlc htlc) := by
  refine .bind_ofExcept fun publicKey _ => .bind_ofExcept fun _ _ => .bind_ofExcept fun _ _ =>
    .bind_ofExcept fun inPayment _ => .bind_ofExcept fun key _ => .load ?_
  apply Reconciles.of_steady
  exact .const fun fresh hfresh => by cases hfresh; exact htlc.drafts_record publicKey inPayment

end Procedure

end LightningRecords

import LightningRecords.Proofs.Procedure.Answered
import LightningRecords.Proofs.Procedure.Frame

namespace LightningRecords

section Asks

variable {α β : Type}

-- Whether a run asks a question, with these answers and out of this environment.
def Interaction.Asks (answers : (q : Question) → Except String q.Answer) (question : Question) :
    Interaction α → Environment → Prop
  | .done _, _ => False
  | .request r next, e =>
    r = .ask question ∨ (next (e.serve answers r).1).Asks answers question (e.serve answers r).2

-- An interaction that fails on the first question that is not answered, with what was said
-- instead. A write is the last thing that it asks for.
def Interaction.Heeds (entity : String) : Interaction (Except SyncError α) → Prop
  | .done _ => True
  | .request (.ask _) next =>
    (∀ message, next (.error message) = .done (.error (.source entity message))) ∧
      ∀ answer, (next (.ok answer)).Heeds entity
  | .request (.load _ _) next => ∀ reply, (next reply).Heeds entity
  | .request _ next => ∀ reply, ∃ result, next reply = .done result

variable {answers : (q : Question) → Except String q.Answer} {question : Question}
  {entity table message : String} {key : Key} {t : Interaction (Except SyncError α)}
  {e : Environment}

theorem Interaction.Heeds.of_asks (h : t.Heeds entity) (hasks : t.Asks answers question e)
    (hanswer : answers question = .error message) :
    ∃ e', t.run (Environment.serve answers) e = (.error (.source entity message), e') ∧
      e'.tables = e.tables := by
  induction t generalizing e with
  | done result => exact hasks.elim
  | request r next ih =>
    cases r with
    | ask other =>
      obtain ⟨hfails, hgoes⟩ := h
      rcases hasks with hhere | hlater
      · cases hhere
        simp only [run, Environment.serve, hanswer, hfails]
        exact ⟨e, rfl, rfl⟩
      · simp only [run, Environment.serve] at hlater ⊢
        cases hreply : answers other with
        | error said =>
          rw [hreply, hfails] at hlater
          exact hlater.elim
        | ok answer =>
          rw [hreply] at hlater
          exact ih _ (hgoes answer) hlater
    | load table key =>
      rcases hasks with hhere | hlater
      · cases hhere
      · obtain ⟨e', hrun, htables⟩ := ih _ (h _) hlater
        exact ⟨e', hrun, htables.trans (Environment.get_keeps rfl).tables⟩
    | put | update | pause =>
      rcases hasks with hhere | hlater
      · cases hhere
      · obtain ⟨result, hresult⟩ := h (e.serve answers _).1
        rw [hresult] at hlater
        exact hlater.elim

theorem Interaction.Heeds.bind_ofExcept {x : Except SyncError β} {f : β → Procedure α}
    (h : ∀ b, (f b).run.Heeds entity) : (Procedure.ofExcept x >>= f).run.Heeds entity := by
  cases x with
  | error error => trivial
  | ok b => exact h b

theorem Interaction.Heeds.bind_ask {f : question.Answer → Procedure α}
    (h : ∀ answer, (f answer).run.Heeds entity) :
    (Procedure.ask entity question >>= f).run.Heeds entity :=
  ⟨fun _ => rfl, h⟩

theorem Interaction.Heeds.bind_load {f : Option Record → Procedure α}
    (h : ∀ stored, (f stored).run.Heeds entity) :
    (Procedure.load table key >>= f).run.Heeds entity := by
  intro reply
  cases reply with
  | error error => trivial
  | ok stored => exact h stored

theorem Procedure.heeds_update {changes : Changes} {expected : Record} (updated : α) :
    (Procedure.update table key changes expected >>= fun _ => pure updated).run.Heeds entity := by
  rw [update_run]
  exact fun reply => ⟨_, rfl⟩

theorem Procedure.heeds_reconcile (schema : Schema) (key : Key) (stored fresh : Option Record) :
    (reconcile schema key stored fresh).run.Heeds entity := by
  cases fresh with
  | none => cases stored <;> trivial
  | some fresh =>
    cases stored with
    | none =>
      intro reply
      cases reply with
      | ok => exact ⟨_, rfl⟩
      | error error =>
        by_cases hyield : (schema.isImmutable && error.isFreshViolation) = true
        · exact ⟨.ok .unchanged, congrArg ExceptT.run (if_pos hyield)⟩
        · exact ⟨.error (.store error), congrArg ExceptT.run (if_neg hyield)⟩
    | some original =>
      simp only [reconcile]
      split
      · trivial
      · unfold revise
        split
        · trivial
        · exact .bind_ofExcept fun _ => heeds_update _

end Asks

theorem Call.heeds : (c : Call) → c.procedure.run.Heeds c.schema.kind
  | .node publicKey =>
    .bind_ofExcept fun _ => .bind_ofExcept fun _ => .bind_load fun _ => .bind_ask fun _ =>
      Procedure.heeds_reconcile ..
  | .channel id =>
    .bind_ofExcept fun _ => .bind_ofExcept fun _ => .bind_load fun _ => .bind_ask fun _ =>
      .bind_ofExcept fun _ => Procedure.heeds_reconcile ..
  | .closeChannel id height => by
    refine .bind_ofExcept fun _ => .bind_ofExcept fun _ => .bind_ofExcept fun _ =>
      .bind_load fun stored => ?_
    cases stored with
    | none => trivial
    | some stored =>
      simp only
      split
      · trivial
      · exact .bind_ofExcept fun _ => Procedure.heeds_update _
  | .policy publicKey channelId =>
    .bind_ofExcept fun _ => .bind_ofExcept fun _ => .bind_ofExcept fun _ => .bind_load fun _ =>
      .bind_ask fun _ => Procedure.heeds_reconcile ..
  | .peer publicKey =>
    .bind_ofExcept fun _ => .bind_ask fun _ => .bind_ofExcept fun _ => .bind_ofExcept fun _ =>
      .bind_load fun _ => .bind_ask fun _ => Procedure.heeds_reconcile ..
  | .localChannel publicKey transactionId vout =>
    .bind_ofExcept fun _ => .bind_ofExcept fun _ => .bind_ofExcept fun _ => .bind_load fun _ =>
      .bind_ask fun _ => .bind_ofExcept fun _ => Procedure.heeds_reconcile ..
  | .block id height =>
    .bind_ofExcept fun _ => .bind_ofExcept fun _ => .bind_load fun _ =>
      Procedure.heeds_reconcile ..
  | .forwardHtlc htlc =>
    .bind_ofExcept fun _ => .bind_ofExcept fun _ => .bind_ofExcept fun _ => .bind_ofExcept fun _ =>
      .bind_ofExcept fun _ => .bind_ofExcept fun _ => .bind_ofExcept fun _ => .bind_load fun _ =>
      Procedure.heeds_reconcile ..
  | .paymentHtlc htlc =>
    .bind_ofExcept fun _ => .bind_ofExcept fun _ => .bind_ofExcept fun _ => .bind_ofExcept fun _ =>
      .bind_ofExcept fun _ => .bind_load fun _ => Procedure.heeds_reconcile ..
  | .receiveHtlc htlc =>
    .bind_ofExcept fun _ => .bind_ofExcept fun _ => .bind_ofExcept fun _ => .bind_ofExcept fun _ =>
      .bind_ofExcept fun _ => .bind_load fun _ => Procedure.heeds_reconcile ..

namespace Call

-- What a call asks the local node.
def questions : Call → List Question
  | .node publicKey => [.node publicKey]
  | .channel id | .policy _ id => [.channel id]
  | .peer _ => [.identity, .peers]
  | .localChannel .. => [.localChannels]
  | .closeChannel .. | .block .. | .forwardHtlc _ | .paymentHtlc _ | .receiveHtlc _ => []

-- The answers say nothing of what a call is about. A policy has to be published, and the first
-- one also has to say whether it is disabled.
def Unreported (answers : (q : Question) → Except String q.Answer) (stored : Option Record) :
    Call → Prop
  | .node publicKey => answers (.node publicKey) = .ok none
  | .channel id => answers (.channel id) = .ok none
  | .policy publicKey channelId => ∃ report, answers (.channel channelId) = .ok report ∧
      ∀ channel ∈ report,
        ∀ policy ∈ channel.policies.find? (fun policy => policy.publicKey = publicKey),
          policy.updatedAt = none ∨ stored = none ∧ policy.isDisabled = none
  | .peer publicKey => ∃ peers, answers .peers = .ok peers ∧
      ∀ peer ∈ peers, peer.publicKey ≠ publicKey
  | .localChannel _ transactionId vout => ∃ channels, answers .localChannels = .ok channels ∧
      ∀ channel ∈ channels,
        ¬(channel.transactionId = transactionId ∧ channel.transactionVout = vout)
  | .closeChannel .. | .block .. | .forwardHtlc _ | .paymentHtlc _ | .receiveHtlc _ => False

-- The record of a peer that was connected when it was last heard of.
def connected? (stored : Option Record) : Call → Option Record
  | .peer _ => stored.filter fun record => record.get? "is_connected" = some (.bool true)
  | _ => none

end Call

-- A peer is connected no longer. Its record says so, a revision further, and nothing else is
-- different.
structure Environment.Disconnects (e : Environment) (key : Key) (original after : Record)
    (e' : Environment) : Prop where
  tables : e'.tables = e.tables.insert Schema.peer.table
    ((e.contents Schema.peer.table).insert key.bytes after.encode)
  held : e'.held Schema.peer.table key = .ok (some after)
  isConnected : after.get? "is_connected" = some (.bool false)
  revision : ∃ revision next, original.get? Record.revisionAttribute = some (.int revision) ∧
    after.get? Record.revisionAttribute = some (.int next) ∧ next.toInt = revision.toInt + 1
  others : original.AgreeBut ["is_connected"] after

namespace Procedure

variable {answers : (q : Question) → Except String q.Answer} {key : Key} {stored : Option Record}
  {original : Record} {outcome : Outcome} {e e' : Environment}

section Parting

variable {difference : Difference}

-- What is copied from the record is alike, so that only one attribute can differ.
theorem not_alike_disconnected_iff (hconnected : original.get? "is_connected" = some (.bool true))
    (name : String) : ¬Difference.Alike (original.get? name)
      ((original.insert "is_connected" (.bool false)).get? name) ↔ name = "is_connected" := by
  by_cases hname : name = "is_connected"
  · subst hname
    simp [hconnected, Difference.Alike]
  · rw [OrderedMap.get?_insert_of_ne _ _ hname]
    simp [hname, Difference.Alike.refl]

theorem difference_disconnected (hconnected : original.get? "is_connected" = some (.bool true))
    (h : mutableDifference .peer original (original.insert "is_connected" (.bool false)) =
      some difference) :
    difference.previous = OrderedMap.ofList [("is_connected", .bool true)] ∧
      difference.updated = OrderedMap.ofList [("is_connected", .bool false)] := by
  have hmutable : "is_connected" ∈ Schema.peer.mutable := by decide
  constructor <;> apply OrderedMap.ext_get? <;> intro name <;> apply Option.ext <;> intro value
  · rw [get?_previous_iff h, not_alike_disconnected_iff hconnected]
    by_cases hname : name = "is_connected"
    · subst hname
      simp [hmutable, hconnected, OrderedMap.ofList]
    · simp [hname, OrderedMap.ofList]
  · rw [get?_updated_iff h, not_alike_disconnected_iff hconnected]
    by_cases hname : name = "is_connected"
    · subst hname
      simp [hmutable, OrderedMap.ofList]
    · simp [hname, OrderedMap.ofList]

theorem Reconciled.disconnects (hconnected : original.get? "is_connected" = some (.bool true))
    (h : Reconciled answers .peer key (some original)
      (some (original.insert "is_connected" (.bool false))) e outcome e') :
    outcome = .updated (OrderedMap.ofList [("is_connected", .bool true)])
        (OrderedMap.ofList [("is_connected", .bool false)]) original ∧
      ∃ after, e.Disconnects key original after e' := by
  obtain ⟨e₁, hkeeps, hends⟩ := h.ends
  have hheld : e₁.held Schema.peer.table key = .ok (some original) :=
    (hkeeps.held _ _).trans h.held
  have hfresh : Record.Storable (original.insert "is_connected" (.bool false)) :=
    (h.storable original rfl).insert _ (Nat.zero_le _)
  rcases revise_eq_ok hheld hends with
    ⟨hsame, _⟩ | ⟨difference, revision, after, hdifference, rfl, hget, happly, hwrites⟩
  · have halike := mutableDifference_eq_none_iff.mp hsame "is_connected" (by decide)
    exact absurd halike ((not_alike_disconnected_iff hconnected _).mpr rfl)
  · obtain ⟨hprevious, hupdated⟩ := difference_disconnected hconnected hdifference
    have hfollows := Outcome.follows_of_apply hfresh hdifference hget happly
    have hstorable := storable_of_apply hfresh hheld hdifference hget happly
    rw [hprevious, hupdated] at hfollows ⊢
    refine ⟨rfl, after, ?_, hwrites.held_self hstorable, ?_, hfollows.revision, ?_⟩
    · rw [hwrites.tables, hkeeps.tables, hkeeps.contents]
    · rw [hfollows.attributes _ (by decide)]
      simp [OrderedMap.ofList]
    · intro name hname hother
      rw [List.mem_singleton] at hother
      rw [hfollows.attributes name hname]
      simp [OrderedMap.ofList, hother, OrderedMap.contains]

end Parting

end Procedure

-- A policy is not taken if it was not published, or would be the first and is silent.
theorem PolicyReport.ofChannel?_eq_none {report : ChannelReport} {publicKey : String}
    {stored : Option Record}
    (h : ∀ policy ∈ report.policies.find? (fun policy => policy.publicKey = publicKey),
      policy.updatedAt = none ∨ stored = none ∧ policy.isDisabled = none) :
    ofChannel? report publicKey stored = none := by
  unfold ofChannel?
  cases hfind : report.policies.find? fun policy => policy.publicKey = publicKey with
  | none => rfl
  | some policy =>
    rcases h policy hfind with hunpublished | ⟨hvacant, hsilent⟩
    · simp [hunpublished]
    · simp [hvacant, hsilent]

namespace Call

-- What becomes of a record that was not reported: nothing, unless it is of a peer that was
-- connected.
def Keeps (c : Call) (key : Key) (stored : Option Record) (e : Environment) (result : c.Result)
    (e' : Environment) : Prop :=
  match c.connected? stored with
  | none => c.effect? result = none ∧ e'.tables = e.tables
  | some original =>
    c.effect? result = some (.updated (OrderedMap.ofList [("is_connected", .bool true)])
      (OrderedMap.ofList [("is_connected", .bool false)]) original) ∧
    ∃ after, e.Disconnects key original after e'

-- What becomes of the one record that a call is about, if it was not reported.
def Overlooks (c : Call) (answers : (q : Question) → Except String q.Answer) (e : Environment)
    (result : c.Result) (e' : Environment) : Prop :=
  ∃ key stored, Field.key c.schema (c.identity (localKey answers)) = .ok key ∧
    e.held c.schema.table key = .ok stored ∧
    (c.Unreported answers stored → c.Keeps key stored e result e')

variable {answers : (q : Question) → Except String q.Answer} {publicKey id : String}
  {outcome : Outcome} {e e' : Environment}

theorem overlooks_node (h : Procedure.execute answers (.node publicKey) e = (.ok outcome, e')) :
    (∃ report, answers (.node publicKey) = .ok report) ∧
      (node publicKey).Overlooks answers e outcome e' := by
  obtain ⟨_, key, stored, report, _, hkey, hreport, hreconciled⟩ := Procedure.node_reconciled h
  refine ⟨⟨report, hreport⟩, key, stored, hkey, hreconciled.held, fun hunreported => ?_⟩
  cases hreport.symm.trans hunreported
  obtain ⟨rfl, htables⟩ := hreconciled.idle
  exact ⟨rfl, htables⟩

theorem overlooks_channel (h : Procedure.execute answers (.channel id) e = (.ok outcome, e')) :
    (∃ report, answers (.channel id) = .ok report) ∧
      (channel id).Overlooks answers e outcome e' := by
  obtain ⟨key, stored, report, fresh, hkey, hreport, hfresh, hreconciled⟩ :=
    Procedure.channel_reconciled h
  refine ⟨⟨report, hreport⟩, key, stored, hkey, hreconciled.held, fun hunreported => ?_⟩
  cases hreport.symm.trans hunreported
  cases hfresh
  obtain ⟨rfl, htables⟩ := hreconciled.idle
  exact ⟨rfl, htables⟩

theorem overlooks_policy
    (h : Procedure.execute answers (.policy publicKey id) e = (.ok outcome, e')) :
    (∃ report, answers (.channel id) = .ok report) ∧
      (policy publicKey id).Overlooks answers e outcome e' := by
  obtain ⟨_, key, stored, report, _, hkey, hreport, hreconciled⟩ := Procedure.policy_reconciled h
  refine ⟨⟨report, hreport⟩, key, stored, hkey, hreconciled.held, fun hunreported => ?_⟩
  obtain ⟨told, htold, hsilent⟩ := hunreported
  cases hreport.symm.trans htold
  have hnone : (report.bind fun report => PolicyReport.ofChannel? report publicKey stored) = none :=
    Option.bind_eq_none_iff.mpr fun channel hchannel =>
      PolicyReport.ofChannel?_eq_none (hsilent channel hchannel)
  rw [hnone] at hreconciled
  obtain ⟨rfl, htables⟩ := hreconciled.idle
  exact ⟨rfl, htables⟩

theorem overlooks_peer (h : Procedure.execute answers (.peer publicKey) e = (.ok outcome, e')) :
    (∃ self, answers .identity = .ok self) ∧ (∃ peers, answers .peers = .ok peers) ∧
      (peer publicKey).Overlooks answers e outcome e' := by
  obtain ⟨self, _, _, key, stored, peers, hself, _, _, hkey, hpeers, hreconciled⟩ :=
    Procedure.peer_reconciled h
  have hlocal : localKey answers = self := by simp [localKey, hself, Except.toOption]
  refine ⟨⟨self, hself⟩, ⟨peers, hpeers⟩, key, stored, by rw [hlocal]; exact hkey,
    hreconciled.held, fun hunreported => ?_⟩
  obtain ⟨told, htold, hothers⟩ := hunreported
  cases hpeers.symm.trans htold
  have hnone : peers.find? (fun peer => peer.publicKey = publicKey) = none :=
    List.find?_eq_none.mpr fun peer hpeer => by simpa using hothers peer hpeer
  rw [hnone] at hreconciled
  cases stored with
  | none =>
    obtain ⟨rfl, htables⟩ := hreconciled.idle
    exact ⟨rfl, htables⟩
  | some original =>
    by_cases hconnected : original.get? "is_connected" = some (.bool true)
    · simp only [Keeps, connected?, Option.filter, hconnected, decide_true, if_true]
      have hdisconnected : disconnected? (some original) =
          some (original.insert "is_connected" (.bool false)) := by
        simp [disconnected?, hconnected]
      simp only [hdisconnected] at hreconciled
      obtain ⟨rfl, hdisconnects⟩ := hreconciled.disconnects hconnected
      exact ⟨rfl, hdisconnects⟩
    · simp only [Keeps, connected?, Option.filter, hconnected, decide_false]
      have hunchanged : disconnected? (some original) = none := by
        simp [disconnected?, hconnected]
      simp only [hunchanged] at hreconciled
      obtain ⟨rfl, htables⟩ := hreconciled.idle
      exact ⟨rfl, htables⟩

theorem overlooks_localChannel {transactionId : String} {vout : UInt32}
    (h : Procedure.execute answers (.localChannel publicKey transactionId vout) e =
      (.ok outcome, e')) :
    (∃ channels, answers .localChannels = .ok channels) ∧
      (localChannel publicKey transactionId vout).Overlooks answers e outcome e' := by
  obtain ⟨_, _, key, stored, channels, fresh, hkey, hchannels, hfresh, hreconciled⟩ :=
    Procedure.localChannel_reconciled h
  refine ⟨⟨channels, hchannels⟩, key, stored, hkey, hreconciled.held, fun hunreported => ?_⟩
  obtain ⟨told, htold, hothers⟩ := hunreported
  cases hchannels.symm.trans htold
  have hnone : channels.find? (fun channel => channel.transactionId = transactionId &&
      channel.transactionVout = vout) = none :=
    List.find?_eq_none.mpr fun channel hchannel => by simpa using hothers channel hchannel
  rw [hnone] at hfresh
  cases hfresh
  obtain ⟨rfl, htables⟩ := hreconciled.idle
  exact ⟨rfl, htables⟩

end Call

open Procedure in
-- A call that ends well got an answer to all it asked. If no answer reports what the call is
-- about, its record stays as it is; only a peer that was connected is not connected any longer.
-- A question that is not answered fails the call, and nothing is written.
theorem unreported_kept (c : Call) (answers : (q : Question) → Except String q.Answer)
    (e : Environment) :
    let run := execute answers c.procedure e
    (∀ result, run.1 = .ok result →
      (∀ question ∈ c.questions, ∃ answer, answers question = .ok answer) ∧
      (c.questions ≠ [] → c.Overlooks answers e result run.2)) ∧
    ∀ question message, c.procedure.run.Asks answers question e →
      answers question = .error message →
      run.1 = .error (.source c.schema.kind message) ∧ run.2.tables = e.tables := by
  intro run
  refine ⟨fun result hresult => ?_, fun question message hasks hanswer => ?_⟩
  · have hrun : execute answers c.procedure e = (.ok result, run.2) := Prod.fst_eq_iff.mp hresult
    cases c with
    | node publicKey =>
      obtain ⟨hanswered, hkept⟩ := Call.overlooks_node hrun
      exact ⟨by simpa [Call.questions] using hanswered, fun _ => hkept⟩
    | channel id =>
      obtain ⟨hanswered, hkept⟩ := Call.overlooks_channel hrun
      exact ⟨by simpa [Call.questions] using hanswered, fun _ => hkept⟩
    | policy publicKey channelId =>
      obtain ⟨hanswered, hkept⟩ := Call.overlooks_policy hrun
      exact ⟨by simpa [Call.questions] using hanswered, fun _ => hkept⟩
    | peer publicKey =>
      obtain ⟨hself, hpeers, hkept⟩ := Call.overlooks_peer hrun
      refine ⟨?_, fun _ => hkept⟩
      simp only [Call.questions, List.forall_mem_cons]
      exact ⟨hself, hpeers, by simp⟩
    | localChannel publicKey transactionId vout =>
      obtain ⟨hanswered, hkept⟩ := Call.overlooks_localChannel hrun
      exact ⟨by simpa [Call.questions] using hanswered, fun _ => hkept⟩
    | closeChannel | block | forwardHtlc | paymentHtlc | receiveHtlc =>
      exact ⟨by simp [Call.questions], fun hne => absurd rfl hne⟩
  · obtain ⟨e', hrun, htables⟩ := c.heeds.of_asks hasks hanswer
    have heq : run = (.error (.source c.schema.kind message), e') := hrun
    rw [heq]
    exact ⟨rfl, htables⟩

open Procedure in
-- A peer that is no longer in the list, and a node that does not tell who it is.
theorem unreported_kept_peer :
    let source : Except String String → List PeerReport → (q : Question) → Except String q.Answer
      | self, _, .identity => self
      | _, peers, .peers => .ok peers
      | _, _, _ => .error ""
    let start := Environment.start Config.minimal 0 ∅
    let listed : PeerReport := { publicKey := "03", socket := "s" }
    let before := (execute (source (.ok "02") [listed]) (peer "03") start).2
    let gone := execute (source (.ok "02") []) (peer "03") before
    let failed := execute (source (.error "down") [listed]) (peer "03") before
    (∃ key original after, before.held "peers" key = .ok (some original) ∧
      before.Disconnects key original after gone.2) ∧
    failed.1 = .error (.source "peer" "down") ∧ failed.2.tables = before.tables := by
  intro source start listed before gone failed
  let key := Key.ofPreimage (Text.bytes "peer:02:03")
  let original : Record := OrderedMap.ofList [("_rev", .int 0), ("features", .list []),
    ("from", .bytes [2]), ("is_connected", .bool true), ("is_inbound", .bool false),
    ("public_key", .bytes [3]), ("socket", .text "s")]
  have hheld : before.held "peers" key = .ok (some original) := by decide +kernel
  obtain ⟨outcome, hgone⟩ := exists_of_isOk (show gone.1.isOk = true by decide +kernel)
  obtain ⟨found, stored, hfound, hstored, hkept⟩ :=
    ((unreported_kept (.peer "03") (source (.ok "02") []) before).1 outcome hgone).2 (by decide)
  have hkey : Field.key Schema.peer ["02", "03"] = .ok key := by decide +kernel
  cases hkey.symm.trans hfound
  cases hheld.symm.trans hstored
  obtain ⟨_, after, hdisconnects⟩ := hkept ⟨[], rfl, by simp⟩
  have hhex : Field.hex "peer" "public key" "03" = .ok [3] := by decide +kernel
  have hasks : (Call.peer "03").procedure.run.Asks (source (.error "down") [listed]) .identity
      before := by
    change Interaction.Asks _ _ (ofExcept (Field.hex "peer" "public key" "03") >>= _).run _
    rw [hhex]
    exact .inl rfl
  exact ⟨⟨key, original, after, hheld, hdisconnects⟩,
    (unreported_kept (.peer "03") (source (.error "down") [listed]) before).2 .identity "down"
      hasks rfl⟩

end LightningRecords

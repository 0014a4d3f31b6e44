import LightningRecords.Proofs.Procedure.History
import LightningRecords.Proofs.Procedure.Spells

namespace LightningRecords.Procedure

variable {answers : (q : Question) → Except String q.Answer} {schema : Schema} {key : Key}
  {stored fresh : Option Record} {outcome : Outcome} {publicKey : String} {e e' : Environment}

theorem execute_ask_eq_ok {α : Type} {a : α} {entity : String} {question : Question}
    {f : question.Answer → Procedure α}
    (h : execute answers (ask entity question >>= f) e = (.ok a, e')) :
    ∃ answer, answers question = .ok answer ∧ execute answers (f answer) e = (.ok a, e') := by
  rw [execute_ask] at h
  cases hanswer : answers question with
  | error message =>
    rw [hanswer] at h
    cases h
  | ok answer =>
    rw [hanswer] at h
    exact ⟨answer, rfl, h⟩

-- A call that ended well has found what was stored under its key, and has reconciled it with
-- what it made of the answers.
structure Reconciled (answers : (q : Question) → Except String q.Answer) (schema : Schema)
    (key : Key) (stored fresh : Option Record) (e : Environment) (outcome : Outcome)
    (e' : Environment) : Prop where
  held : e.held schema.table key = .ok stored
  ends : ∃ e₁, e.Keeps e₁ ∧ execute answers (reconcile schema key stored fresh) e₁ = (.ok outcome, e')

namespace Reconciled

theorem storable (h : Reconciled answers schema key stored fresh e outcome e') :
    ∀ record ∈ stored, record.Storable := by
  rintro record rfl
  exact Environment.storable_of_held h.held

theorem idle (h : Reconciled answers schema key stored none e outcome e') :
    outcome = .unchanged ∧ e'.tables = e.tables := by
  obtain ⟨e₁, hkeeps, hends⟩ := h.ends
  cases stored <;> cases hends <;> exact ⟨rfl, hkeeps.tables⟩

theorem leaves (h : Reconciled answers schema key stored fresh e outcome e')
    (hmutable : Record.revisionAttribute ∉ schema.mutable)
    (hstorable : ∀ record ∈ fresh, record.Storable)
    (hfirst : stored = none → ∀ record ∈ fresh, record.get? Record.revisionAttribute = none) :
    ∃ after, e'.held schema.table key = .ok after ∧ schema.Leaves stored fresh after := by
  obtain ⟨e₁, hkeeps, hends⟩ := h.ends
  have hheld : e₁.held schema.table key = .ok stored := (hkeeps.held _ _).trans h.held
  exact leaves_of_reconcile hmutable hstorable hfirst hheld hends

end Reconciled

theorem node_reconciled (h : execute answers (node publicKey) e = (.ok outcome, e')) :
    ∃ bytes key stored report, Hex.decode publicKey = .ok bytes ∧
      Field.key .node [publicKey] = .ok key ∧ answers (.node publicKey) = .ok report ∧
      Reconciled answers .node key stored (report.map fun report => report.record bytes stored)
        e outcome e' := by
  obtain ⟨bytes, hhex, h⟩ := execute_ofExcept_eq_ok h
  obtain ⟨key, hkey, h⟩ := execute_ofExcept_eq_ok h
  obtain ⟨stored, e₁, hheld, hkeeps, h⟩ := execute_load_found h
  obtain ⟨report, hreport, h⟩ := execute_ask_eq_ok h
  exact ⟨bytes, key, stored, report, Field.decode_of_hex hhex, hkey, hreport, hheld, e₁, hkeeps, h⟩

theorem channel_reconciled {id : String} (h : execute answers (channel id) e = (.ok outcome, e')) :
    ∃ key stored report fresh, Field.key .channel [id] = .ok key ∧
      answers (.channel id) = .ok report ∧
      report.mapM (fun report => report.record id stored) = .ok fresh ∧
      Reconciled answers .channel key stored fresh e outcome e' := by
  obtain ⟨_, _, h⟩ := execute_ofExcept_eq_ok h
  obtain ⟨key, hkey, h⟩ := execute_ofExcept_eq_ok h
  obtain ⟨stored, e₁, hheld, hkeeps, h⟩ := execute_load_found h
  obtain ⟨report, hreport, h⟩ := execute_ask_eq_ok h
  obtain ⟨fresh, hfresh, h⟩ := execute_ofExcept_eq_ok h
  exact ⟨key, stored, report, fresh, hkey, hreport, hfresh, hheld, e₁, hkeeps, h⟩

theorem policy_reconciled {channelId : String}
    (h : execute answers (policy publicKey channelId) e = (.ok outcome, e')) :
    ∃ bytes key stored report, Hex.decode publicKey = .ok bytes ∧
      Field.key .policy [publicKey, channelId] = .ok key ∧
      answers (.channel channelId) = .ok report ∧
      Reconciled answers .policy key stored
        ((report.bind fun report => PolicyReport.ofChannel? report publicKey stored).map
          fun policy => policy.record channelId bytes) e outcome e' := by
  obtain ⟨bytes, hhex, h⟩ := execute_ofExcept_eq_ok h
  obtain ⟨_, _, h⟩ := execute_ofExcept_eq_ok h
  obtain ⟨key, hkey, h⟩ := execute_ofExcept_eq_ok h
  obtain ⟨stored, e₁, hheld, hkeeps, h⟩ := execute_load_found h
  obtain ⟨report, hreport, h⟩ := execute_ask_eq_ok h
  exact ⟨bytes, key, stored, report, Field.decode_of_hex hhex, hkey, hreport, hheld, e₁, hkeeps, h⟩

theorem peer_reconciled (h : execute answers (peer publicKey) e = (.ok outcome, e')) :
    ∃ localKey localBytes bytes key stored peers, answers .identity = .ok localKey ∧
      Hex.decode localKey = .ok localBytes ∧ Hex.decode publicKey = .ok bytes ∧
      Field.key .peer [localKey, publicKey] = .ok key ∧ answers .peers = .ok peers ∧
      Reconciled answers .peer key stored
        (match peers.find? fun peer => peer.publicKey = publicKey with
          | some report => some (report.record localBytes bytes stored)
          | none => disconnected? stored) e outcome e' := by
  obtain ⟨bytes, hhex, h⟩ := execute_ofExcept_eq_ok h
  obtain ⟨localKey, hidentity, h⟩ := execute_ask_eq_ok h
  obtain ⟨localBytes, hlocal, h⟩ := execute_ofExcept_eq_ok h
  obtain ⟨key, hkey, h⟩ := execute_ofExcept_eq_ok h
  obtain ⟨stored, e₁, hheld, hkeeps, h⟩ := execute_load_found h
  obtain ⟨peers, hpeers, h⟩ := execute_ask_eq_ok h
  exact ⟨localKey, localBytes, bytes, key, stored, peers, hidentity, Field.decode_of_hex hlocal,
    Field.decode_of_hex hhex, hkey, hpeers, hheld, e₁, hkeeps, h⟩

theorem localChannel_reconciled {transactionId : String} {vout : UInt32}
    (h : execute answers (localChannel publicKey transactionId vout) e = (.ok outcome, e')) :
    ∃ localBytes transaction key stored channels fresh,
      Field.key .localChannel [publicKey, transactionId, toString vout.toNat] = .ok key ∧
      answers .localChannels = .ok channels ∧
      (channels.find? fun channel =>
        channel.transactionId = transactionId && channel.transactionVout = vout).mapM
          (fun report => report.record localBytes transaction) = .ok fresh ∧
      Reconciled answers .localChannel key stored fresh e outcome e' := by
  obtain ⟨localBytes, _, h⟩ := execute_ofExcept_eq_ok h
  obtain ⟨transaction, _, h⟩ := execute_ofExcept_eq_ok h
  obtain ⟨key, hkey, h⟩ := execute_ofExcept_eq_ok h
  obtain ⟨stored, e₁, hheld, hkeeps, h⟩ := execute_load_found h
  obtain ⟨channels, hchannels, h⟩ := execute_ask_eq_ok h
  obtain ⟨fresh, hfresh, h⟩ := execute_ofExcept_eq_ok h
  exact ⟨localBytes, transaction, key, stored, channels, fresh, hkey, hchannels, hfresh, hheld, e₁,
    hkeeps, h⟩

end LightningRecords.Procedure

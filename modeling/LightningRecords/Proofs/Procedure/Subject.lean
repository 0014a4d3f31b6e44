import LightningRecords.Proofs.Procedure.Frame

namespace LightningRecords

-- What a call is about: a kind of record, and what tells the records of the kind apart.
inductive Subject where
  | node (publicKey : String)
  | channel (id : String)
  | policy (publicKey channelId : String)
  | peer (localKey publicKey : String)
  | localChannel (publicKey transactionId : String) (vout : UInt32)
  | block (id : String)
  | forwardHtlc (publicKey inChannel : String) (inPayment : UInt64) (outChannel : String)
    (outPayment : UInt64)
  | paymentHtlc (publicKey outChannel : String) (outPayment : UInt64)
  | receiveHtlc (publicKey inChannel : String) (inPayment : UInt64)
deriving DecidableEq, Repr

namespace Subject

def schema : Subject → Schema
  | .node _ => .node
  | .channel _ => .channel
  | .policy .. => .policy
  | .peer .. => .peer
  | .localChannel .. => .localChannel
  | .block _ => .block
  | .forwardHtlc .. => .forwardHtlc
  | .paymentHtlc .. => .paymentHtlc
  | .receiveHtlc .. => .receiveHtlc

-- Numbers are told in decimal.
def parts : Subject → List String
  | .node publicKey => [publicKey]
  | .channel id => [id]
  | .policy publicKey channelId => [publicKey, channelId]
  | .peer localKey publicKey => [localKey, publicKey]
  | .localChannel publicKey transactionId vout => [publicKey, transactionId, toString vout.toNat]
  | .block id => [id]
  | .forwardHtlc publicKey inChannel inPayment outChannel outPayment =>
    [publicKey, inChannel, toString inPayment.toNat, outChannel, toString outPayment.toNat]
  | .paymentHtlc publicKey outChannel outPayment =>
    [publicKey, outChannel, toString outPayment.toNat]
  | .receiveHtlc publicKey inChannel inPayment => [publicKey, inChannel, toString inPayment.toNat]

theorem toString_inj {m n : Nat} : toString m = toString n ↔ m = n := by
  refine ⟨fun h => ?_, congrArg toString⟩
  rw [Nat.toString_eq_ofList_toDigits, Nat.toString_eq_ofList_toDigits, String.ofList_inj] at h
  rw [← Nat.ofDigitChars_ten_toDigits (n := m), h, Nat.ofDigitChars_ten_toDigits]

-- The kinds are all different, so that only subjects of one constructor are to be compared.
theorem ext_of_kind {s s' : Subject} (hkind : s.schema.kind = s'.schema.kind)
    (hparts : s.parts = s'.parts) : s = s' := by
  cases s <;> cases s' <;>
    simp [schema, Schema.node, Schema.channel, Schema.policy, Schema.peer, Schema.localChannel,
      Schema.block, Schema.forwardHtlc, Schema.paymentHtlc, Schema.receiveHtlc] at hkind <;>
    simpa only [parts, List.cons.injEq, toString_inj, UInt32.toNat_inj, UInt64.toNat_inj, and_true,
      node.injEq, channel.injEq, policy.injEq, peer.injEq, localChannel.injEq, block.injEq,
      forwardHtlc.injEq, paymentHtlc.injEq, receiveHtlc.injEq] using hparts

end Subject

namespace Call

def subject (localKey : String) : Call → Subject
  | .node publicKey => .node publicKey
  | .channel id | .closeChannel id _ => .channel id
  | .policy publicKey channelId => .policy publicKey channelId
  | .peer publicKey => .peer localKey publicKey
  | .localChannel publicKey transactionId vout => .localChannel publicKey transactionId vout
  | .block id _ => .block id
  | .forwardHtlc htlc =>
    .forwardHtlc htlc.publicKey htlc.inChannel htlc.inPayment htlc.outChannel htlc.outPayment
  | .paymentHtlc htlc => .paymentHtlc htlc.publicKey htlc.outChannel htlc.outPayment
  | .receiveHtlc htlc => .receiveHtlc htlc.publicKey htlc.inChannel htlc.inPayment

theorem schema_subject (c : Call) (localKey : String) : (c.subject localKey).schema = c.schema := by
  cases c <;> rfl

theorem parts_subject (c : Call) (localKey : String) :
    (c.subject localKey).parts = c.identity localKey := by
  cases c <;> rfl

end Call

section Addresses

-- The table and the key that a request is about.
def Request.place? : Request → Option (String × Key)
  | .load table key | .put table key _ _ | .update table key _ _ => some (table, key)
  | .ask _ | .pause _ => none

variable {α : Type} {answers : (q : Question) → Except String q.Answer} {table : String} {key : Key}

-- A key that an interaction may make a request about, with these answers. Every request is
-- served by the store as it is by then, which anyone else may have changed.
inductive Interaction.Addresses (answers : (q : Question) → Except String q.Answer) :
    Interaction α → String → Key → Prop where
  | here {r : Request} {next : r.Reply → Interaction α} {table : String} {key : Key}
      (h : r.place? = some (table, key)) : Addresses answers (.request r next) table key
  | later {r : Request} {next : r.Reply → Interaction α} {table : String} {key : Key}
      (e : Environment) (h : Addresses answers (next (e.serve answers r).1) table key) :
      Addresses answers (.request r next) table key

theorem Interaction.not_addresses_done {a : α} :
    ¬(Interaction.done a).Addresses answers table key := fun h => by cases h

variable {schema : Schema} {effect? : α → Option Effect} {about : Key → Prop}
  {t : Interaction (Except SyncError α)} {stored : Option Record} {other : Key}

theorem place_of_settles (h : Settles schema effect? key stored t)
    (haddresses : t.Addresses answers table other) : table = schema.table ∧ other = key := by
  induction h with
  | fail | idle => exact absurd haddresses Interaction.not_addresses_done
  | ask _ ih =>
    cases haddresses with
    | here h => cases h
    | later e h => exact ih _ h
  | create | update =>
    cases haddresses with
    | here h =>
      cases h
      exact ⟨rfl, rfl⟩
    | later e h => exact absurd h Interaction.not_addresses_done

-- What is written is under the key that was looked under before.
theorem place_of_prepares (h : Prepares schema effect? t) (hlooks : t.Looks answers about)
    (haddresses : t.Addresses answers table key) : table = schema.table ∧ about key := by
  induction h with
  | fail => exact absurd haddresses Interaction.not_addresses_done
  | ask _ ih =>
    cases haddresses with
    | here h => cases h
    | later e h => exact ih _ hlooks h
  | @load looked next hok herror =>
    cases haddresses with
    | here h =>
      cases h
      exact ⟨rfl, hlooks⟩
    | later e h =>
      change (next (e.get schema.table looked).1).Addresses answers table key at h
      cases hget : e.get schema.table looked with
      | mk reply e' =>
        rw [hget] at h
        cases reply with
        | error error =>
          rw [herror error] at h
          exact absurd h Interaction.not_addresses_done
        | ok stored =>
          have hstorable : ∀ record ∈ stored, record.Storable := by
            rintro record rfl
            exact Environment.storable_of_held (Environment.held_of_get hget)
          obtain ⟨htable, rfl⟩ := place_of_settles (hok stored hstorable) h
          exact ⟨htable, hlooks⟩

theorem Call.place {c : Call} (h : c.procedure.run.Addresses answers table key) :
    table = c.schema.table ∧ Field.key c.schema (c.identity (localKey answers)) = .ok key :=
  place_of_prepares c.prepares (c.looks answers) h

end Addresses

-- What is hashed for a subject, if it is one that can have a key.
def Subject.preimage (s : Subject) : Except KeyError Bytes :=
  Key.compositePreimage s.schema.kind s.parts

theorem Call.preimage_of_place {c : Call} {localKey : String} {key : Key}
    (h : Field.key c.schema (c.identity localKey) = .ok key) :
    ∃ message, (c.subject localKey).preimage = .ok message ∧ key = Key.ofPreimage message := by
  rw [Subject.preimage, schema_subject, parts_subject]
  exact Field.key_eq_ok h

theorem Subject.eq_of_preimage {s s' : Subject} {message : Bytes} (h : s.preimage = .ok message)
    (h' : s'.preimage = .ok message) : s = s' := by
  obtain ⟨hkind, hparts⟩ := Key.compositePreimage_injective h h'
  exact ext_of_kind hkind hparts

-- From what is hashed, the kind and the parts can be told, an identity that is given in one
-- piece is hashed as its pieces are, and calls that make requests about the same key are
-- about the same subject, as long as the digests of the two are not the same by chance.
theorem keys_unambiguous :
    (∀ kind parts kind' parts' message, Key.compositePreimage kind parts = .ok message →
      Key.compositePreimage kind' parts' = .ok message → kind = kind' ∧ parts = parts') ∧
    (∀ kind identity, (∀ piece ∈ Key.pieces identity, piece ≠ "") →
      Key.compositePreimage kind (Key.pieces identity) = Key.preimage kind identity) ∧
    ∀ (c c' : Call) (answers answers' : (q : Question) → Except String q.Answer) (key : Key)
      (table table' : String),
      let subject := c.subject (localKey answers)
      let subject' := c'.subject (localKey answers')
      (∀ message message', subject.preimage = .ok message → subject'.preimage = .ok message' →
        Sha256.digest message = Sha256.digest message' → message = message') →
      c.procedure.run.Addresses answers table key →
      c'.procedure.run.Addresses answers' table' key → subject = subject' := by
  refine ⟨fun kind parts kind' parts' message => Key.compositePreimage_injective,
    fun kind identity => Key.compositePreimage_pieces, ?_⟩
  intro c c' answers answers' key table table' subject subject' hdigest haddresses haddresses'
  obtain ⟨message, hmessage, hkey⟩ := Call.preimage_of_place (Call.place haddresses).2
  obtain ⟨message', hmessage', hkey'⟩ := Call.preimage_of_place (Call.place haddresses').2
  have hsame : Sha256.digest message = Sha256.digest message' :=
    congrArg Key.bytes (hkey.symm.trans hkey')
  rw [hdigest message message' hmessage hmessage' hsame] at hmessage
  exact Subject.eq_of_preimage hmessage hmessage'

theorem keys_unambiguous_channel :
    let answers : (q : Question) → Except String q.Answer := fun _ => .error ""
    let key := Key.ofPreimage (Text.bytes "channel:1x1x1")
    let reported := Call.channel "1x1x1"
    let closed := Call.closeChannel "1x1x1" 7
    reported.procedure.run.Addresses answers "channels" key ∧
      closed.procedure.run.Addresses answers "channels" key ∧
      reported.subject (localKey answers) = closed.subject (localKey answers) ∧
      Key.compositePreimage "channel" ["1x1", "1"] = Key.preimage "channel" "1x1:1" := by
  intro answers key reported closed
  obtain ⟨hinjective, hpieces, hsubject⟩ := keys_unambiguous
  have hreported : reported.procedure.run.Addresses answers "channels" key := .here rfl
  have hclosed : closed.procedure.run.Addresses answers "channels" key := .here rfl
  refine ⟨hreported, hclosed, ?_, ?_⟩
  · refine hsubject reported closed answers answers key _ _ ?_ hreported hclosed
    intro message message' hmessage hmessage' _
    exact Except.ok.inj (hmessage.symm.trans hmessage')
  · exact hpieces "channel" "1x1:1" (by decide +kernel)

end LightningRecords

import LightningRecords.Proofs.Hex
import LightningRecords.Proofs.Procedure.Subject

namespace LightningRecords

namespace Schema

-- The kinds of records that are identified by bytes and nothing else.
def entities : List Schema := [.node, .block, .peer]

-- The attributes that hold the bytes.
def identifiers (schema : Schema) : List String :=
  if schema = .peer then ["from", schema.unique] else [schema.unique]

theorem mem_all_of_entity {schema : Schema} (h : schema ∈ entities) : schema ∈ all := by
  revert schema
  decide

theorem not_varies_identifier {schema : Schema} (h : schema ∈ entities) {name : String}
    (hname : name ∈ schema.identifiers) :
    name ≠ Record.revisionAttribute ∧ ¬schema.Varies name := by
  revert schema name
  decide

end Schema

namespace Subject

-- The attributes that hold the bytes of an identity, and how these were spelled.
def spellings : Subject → List (String × String)
  | .node publicKey => [("public_key", publicKey)]
  | .block id => [("id", id)]
  | .peer localKey publicKey => [("from", localKey), ("public_key", publicKey)]
  | _ => []

-- A record has its place under a key that was derived from given spellings, and holds the
-- bytes that they spell.
structure Spells (s : Subject) (given : String → Prop) (key : Key) (record : Record) : Prop where
  key : Field.key s.schema s.parts = .ok key
  given : ∀ a ∈ s.spellings, given a.2
  bytes : ∀ a ∈ s.spellings, ∃ bytes, Hex.decode a.2 = .ok bytes ∧
    record.get? a.1 = some (.bytes bytes)

theorem names_spellings {s : Subject} (h : s.schema ∈ Schema.entities) :
    s.spellings.map Prod.fst = s.schema.identifiers := by
  cases s with
  | node | block | peer => rfl
  | _ => exact absurd h (by simp only [schema]; decide)

theorem mem_identifiers {s : Subject} (h : s.schema ∈ Schema.entities) {a : String × String}
    (ha : a ∈ s.spellings) : a.1 ∈ s.schema.identifiers := by
  rw [← names_spellings h]
  exact List.mem_map_of_mem ha

-- Of one kind, two identities that are spelled in the same way are the same.
theorem eq_of_spellings {s s' : Subject} (hschema : s.schema = s'.schema)
    (hentity : s.schema ∈ Schema.entities)
    (h : ∀ name text text', (name, text) ∈ s.spellings → (name, text') ∈ s'.spellings →
      text = text') : s = s' := by
  cases s with
  | node publicKey =>
    cases s' with
    | node other => rw [h _ publicKey other List.mem_cons_self List.mem_cons_self]
    | _ => exact absurd hschema (by simp only [schema]; decide)
  | block id =>
    cases s' with
    | block other => rw [h _ id other List.mem_cons_self List.mem_cons_self]
    | _ => exact absurd hschema (by simp only [schema]; decide)
  | peer localKey publicKey =>
    cases s' with
    | peer otherLocal other =>
      rw [h "from" localKey otherLocal List.mem_cons_self List.mem_cons_self,
        h "public_key" publicKey other (by simp [spellings]) (by simp [spellings])]
    | _ => exact absurd hschema (by simp only [schema]; decide)
  | _ => exact absurd hentity (by simp only [schema]; decide)

end Subject

-- The spellings that a call is given.
def Call.spellings : Call → List String
  | .node publicKey | .peer publicKey => [publicKey]
  | .block id _ => [id]
  | _ => []

section Puts

variable {α β : Type} {given : String → Prop} {fits : Key → Record → Prop}

def Request.told? : (r : Request) → r.Reply → Option String
  | .ask .identity, .ok text => some text
  | _, _ => none

-- Every record that an interaction puts fits the key that it is put under, as long as the
-- local node tells given spellings only.
def Interaction.Puts (given : String → Prop) (fits : Key → Record → Prop) : Interaction α → Prop
  | .done _ => True
  | .request r next =>
    (∀ table key record fresh, r = .put table key record fresh → fits key record) ∧
      ∀ reply, (∀ text ∈ r.told? reply, given text) → (next reply).Puts given fits

variable {entity table : String} {question : Question} {key : Key}

theorem Interaction.Puts.bind_ofExcept {x : Except SyncError β} {f : β → Procedure α}
    (h : ∀ b, x = .ok b → (f b).run.Puts given fits) :
    (Procedure.ofExcept x >>= f).run.Puts given fits := by
  cases x with
  | error error => trivial
  | ok b => exact h b rfl

theorem Interaction.Puts.bind_ask {f : question.Answer → Procedure α}
    (h : ∀ answer, (∀ text ∈ (Request.ask question).told? (.ok answer), given text) →
      (f answer).run.Puts given fits) :
    (Procedure.ask entity question >>= f).run.Puts given fits := by
  constructor
  · rintro _ _ _ _ ⟨⟩
  · intro reply htold
    cases reply with
    | error message => trivial
    | ok answer => exact h answer htold

theorem Interaction.Puts.bind_load {f : Option Record → Procedure α}
    (h : ∀ stored, (f stored).run.Puts given fits) :
    (Procedure.load table key >>= f).run.Puts given fits := by
  constructor
  · rintro _ _ _ _ ⟨⟩
  · intro reply _
    cases reply with
    | error error => trivial
    | ok stored => exact h stored

theorem Procedure.puts_reconcile {schema : Schema} {stored fresh : Option Record}
    (h : stored = none → ∀ record ∈ fresh, record.get? Record.revisionAttribute = none ∧
      fits key (record.insert Record.revisionAttribute (.int Schema.baseRevision))) :
    (reconcile schema key stored fresh).run.Puts given fits := by
  cases fresh with
  | none => cases stored <;> trivial
  | some fresh =>
    cases stored with
    | none =>
      obtain ⟨hrevision, hfits⟩ := h rfl fresh rfl
      simp only [reconcile, create_run hrevision]
      refine ⟨?_, fun _ _ => trivial⟩
      rintro _ _ _ _ ⟨⟩
      exact hfits
    | some original =>
      simp only [reconcile]
      split
      · trivial
      · cases hdifference : mutableDifference schema original fresh with
        | none =>
          rw [revise_run_of_same hdifference]
          trivial
        | some difference =>
          cases hrevision : original.revision? with
          | none =>
            rw [revise_run_of_unrevised hdifference hrevision]
            trivial
          | some revision =>
            rw [revise_run hdifference hrevision]
            refine ⟨?_, fun _ _ => trivial⟩
            rintro _ _ _ _ ⟨⟩

end Puts

section Calls

variable {given : String → Prop}

theorem Field.decode_of_hex {entity field text : String} {bytes : Bytes}
    (h : Field.hex entity field text = .ok bytes) : Hex.decode text = .ok bytes := by
  obtain ⟨_, _, h⟩ := bind_eq_ok_iff.mp h
  split at h
  · cases h
    assumption
  · cases h

-- What a call may put of the kinds of records that bytes identify.
def Call.Spells (c : Call) (given : String → Prop) (key : Key) (record : Record) : Prop :=
  ∃ s : Subject, s.schema = c.schema ∧ s.Spells given key record

namespace Procedure

theorem puts_node {publicKey : String} (hgiven : given publicKey) :
    (node publicKey).run.Puts given ((Call.node publicKey).Spells given) := by
  refine .bind_ofExcept fun bytes hbytes => .bind_ofExcept fun key hkey =>
    .bind_load fun stored => .bind_ask fun report _ => puts_reconcile ?_
  rintro rfl record hrecord
  obtain ⟨report, _, rfl⟩ := Option.map_eq_some_iff.mp hrecord
  have hnone : ∀ record ∈ (none : Option Record), record.Storable := by simp
  have hdrafts := report.drafts_record hnone bytes
  refine ⟨hdrafts.revision, .node publicKey, rfl, hkey, by simpa [Subject.spellings], ?_⟩
  have hdecode := Field.decode_of_hex hbytes
  simp [Subject.spellings, hdecode, NodeReport.record, OrderedMap.ofList, Record.revisionAttribute]

theorem puts_block {id : String} (height : UInt32) (hgiven : given id) :
    (block id height).run.Puts given ((Call.block id height).Spells given) := by
  refine .bind_ofExcept fun bytes hbytes => .bind_ofExcept fun key hkey =>
    .bind_load fun stored => puts_reconcile ?_
  rintro rfl _ ⟨⟩
  refine ⟨(drafts_block height bytes).revision, .block id, rfl, hkey,
    by simpa [Subject.spellings], ?_⟩
  have hdecode := Field.decode_of_hex hbytes
  simp [Subject.spellings, hdecode, OrderedMap.ofList, Record.revisionAttribute]

theorem puts_peer {publicKey : String} (hgiven : given publicKey) :
    (peer publicKey).run.Puts given ((Call.peer publicKey).Spells given) := by
  refine .bind_ofExcept fun bytes hbytes => .bind_ask fun localKey htold =>
    .bind_ofExcept fun localBytes hlocal => .bind_ofExcept fun key hkey =>
    .bind_load fun stored => .bind_ask fun peers _ => puts_reconcile ?_
  rintro rfl record hrecord
  split at hrecord
  · rename_i report _
    cases hrecord
    have hnone : ∀ record ∈ (none : Option Record), record.Storable := by simp
    have hdrafts := report.drafts_record hnone localBytes bytes
    have hlocalKey : given localKey := htold localKey rfl
    refine ⟨hdrafts.revision, .peer localKey publicKey, rfl, hkey,
      by simpa [Subject.spellings] using ⟨hlocalKey, hgiven⟩, ?_⟩
    have hdecode := Field.decode_of_hex hbytes
    have hdecode' := Field.decode_of_hex hlocal
    simp [Subject.spellings, hdecode, hdecode', PeerReport.record, OrderedMap.ofList,
      Record.revisionAttribute]
  · cases hrecord

end Procedure

theorem Call.puts {c : Call} (hentity : c.schema ∈ Schema.entities)
    (hgiven : ∀ text ∈ c.spellings, given text) :
    c.procedure.run.Puts given (c.Spells given) := by
  cases c with
  | node publicKey => exact Procedure.puts_node (hgiven publicKey List.mem_cons_self)
  | block id height => exact Procedure.puts_block height (hgiven id List.mem_cons_self)
  | peer publicKey => exact Procedure.puts_peer (hgiven publicKey List.mem_cons_self)
  | channel | closeChannel | policy | localChannel | forwardHtlc | paymentHtlc | receiveHtlc =>
    simp only [schema] at hentity
    exact absurd hentity (by decide)

end Calls

end LightningRecords

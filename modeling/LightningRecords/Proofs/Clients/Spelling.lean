import LightningRecords.Proofs.Clients.Invariant
import LightningRecords.Proofs.Procedure.Spells

namespace LightningRecords

-- The spellings that a move brings in. The local node is asked for its own key.
def Move.spellings : Move → List String
  | .begin call => call.spellings
  | .advance _ answers => (answers .identity).toOption.toList

section Versions

variable {given : String → Prop} {writes : List Write} {w : Write} {table : String} {key : Key}
  {record : Record}

theorem mem_head?_versions_append (h : record ∈ (versions (writes ++ [w]) table key).head?) :
    record ∈ (versions writes table key).head? ∨
      versions writes w.table w.key = [] ∧ w.table = table ∧ w.key = key ∧
        w.reply = .ok record := by
  cases hversions : versions writes table key with
  | nil =>
    rcases mem_versions_append_singleton (List.mem_of_mem_head? h) with hold | ⟨rfl, rfl, hreply⟩
    · rw [hversions] at hold
      cases hold
    · exact .inr ⟨hversions, rfl, rfl, hreply⟩
  | cons first rest =>
    rw [versions_append, hversions] at h
    exact .inl h

-- The first version of any record that bytes identify is under the key of given spellings.
def FirstSpelled (writes : List Write) (given : String → Prop) : Prop :=
  ∀ schema ∈ Schema.entities, ∀ key,
    ∀ record ∈ (versions writes schema.table key).head?,
      ∃ s : Subject, s.schema = schema ∧ s.Spells given key record

theorem FirstSpelled.append (h : FirstSpelled writes given)
    (hw : versions writes w.table w.key = [] → ∀ record, w.reply = .ok record →
      ∀ schema ∈ Schema.entities, w.table = schema.table →
        ∃ s : Subject, s.schema = schema ∧ s.Spells given w.key record) :
    FirstSpelled (writes ++ [w]) given := by
  intro schema hentity key record hrecord
  rcases mem_head?_versions_append hrecord with hrecord | ⟨hnone, htable, rfl, hreply⟩
  · exact h schema hentity key record hrecord
  · exact hw hnone record hreply schema hentity htable

end Versions

-- The only question about the local node's own key is that for its identity.
theorem Environment.told_of_serve {answers : (q : Question) → Except String q.Answer} {r : Request}
    {e : Environment} {text : String} (h : text ∈ r.told? (e.serve answers r).1) :
    answers .identity = .ok text := by
  cases r with
  | ask question =>
    cases question with
    | identity =>
      cases hreply : answers .identity <;> simp only [serve, hreply] at h <;> cases h
      rfl
    | _ => cases h
  | _ => cases h

section Steps

variable {given : String → Prop} {s : System} {v : Visit} {i : Nat}

-- Calls about what bytes identify put only records that are under the keys of given
-- spellings, and so have those that made the first version of any record there is.
structure System.Spelled (s : System) (given : String → Prop) : Prop where
  visits : ∀ v ∈ s.visits, v.call.schema ∈ Schema.entities →
    v.rest.Puts given (v.call.Spells given)
  first : FirstSpelled s.writes given

namespace System.Spelled

variable {answers : (q : Question) → Except String q.Answer} {r : Request}
  {next : r.Reply → Interaction (Except SyncError v.call.Result)}

theorem start (config : Config) (fileSize : UInt64) (capacity : Capacity) :
    (System.start config fileSize capacity).Spelled given where
  visits := by simp [System.start]
  first := by simp [FirstSpelled, System.start, versions]

-- A call that begins has put nothing yet.
theorem begin (h : s.Spelled given) {call : Call} (hgiven : ∀ text ∈ call.spellings, given text) :
    (s.step (.begin call)).Spelled given where
  visits := by
    intro v hv hentity
    rcases List.mem_append.mp hv with hv | hv
    · exact h.visits v hv hentity
    · rw [List.mem_singleton.mp hv] at hentity ⊢
      exact Call.puts hentity hgiven
  first := h.first

-- What an exchange writes, if it is the first version of its record, was put.
theorem first_of_exchange (h : s.Spelled given) (hc : s.Consistent) (hhere : s.visits[i]? = some v)
    (hrest : v.rest = .request r next) :
    FirstSpelled (s.exchange i answers v r next).writes given := by
  rcases hc.writes_exchange hhere hrest with hnone | ⟨w, hwrites, hplace, hw⟩
  · exact hnone ▸ h.first
  · refine hwrites ▸ h.first.append fun hvacant record hreply schema hentity htable => ?_
    obtain rfl := Schema.eq_of_table_eq v.call.schema_mem (Schema.mem_all_of_entity hentity)
      (hplace.symm.trans htable)
    have hputs := h.visits v (List.mem_of_getElem? hhere) hentity
    rw [hrest] at hputs
    rcases hw record hreply with ⟨fresh, rfl⟩ | ⟨_, _, _, _, hlast, _⟩
    · exact hputs.1 _ _ _ _ rfl
    · rw [hvacant] at hlast
      cases hlast

theorem exchange (h : s.Spelled given) (hc : s.Consistent) (hhere : s.visits[i]? = some v)
    (hrest : v.rest = .request r next) (hgiven : ∀ text, answers .identity = .ok text → given text) :
    (s.exchange i answers v r next).Spelled given where
  visits := by
    intro v' hv' hentity
    rcases List.mem_or_eq_of_mem_set hv' with hold | rfl
    · exact h.visits v' hold hentity
    · have hputs := h.visits v (List.mem_of_getElem? hhere) hentity
      rw [hrest] at hputs
      exact hputs.2 _ fun text htold => hgiven text (Environment.told_of_serve htold)
  first := h.first_of_exchange hc hhere hrest

theorem step (h : s.Spelled given) (hc : s.Consistent) {move : Move}
    (hgiven : ∀ text ∈ move.spellings, given text) : (s.step move).Spelled given := by
  cases move with
  | begin call => exact h.begin hgiven
  | advance i answers =>
    simp only [System.step]
    split
    · exact h
    · rename_i v hhere
      split
      · exact h
      · rename_i r next hrest
        refine h.exchange hc hhere hrest fun text htext => hgiven text ?_
        simp [Move.spellings, htext, Except.toOption]

theorem run (config : Config) (fileSize : UInt64) (capacity : Capacity) (moves : List Move)
    (hgiven : ∀ text ∈ moves.flatMap Move.spellings, given text) :
    (System.run config fileSize capacity moves).Spelled given :=
  System.Consistent.run_induction (P := (·.Spelled given)) config fileSize capacity moves
    (start config fileSize capacity) fun _ hc h move hmove => h.step hc fun text htext =>
      hgiven text (List.mem_flatMap.mpr ⟨move, hmove, htext⟩)

-- Updates leave alone what identifies a record, so that the last version has it, too.
theorem of_held (h : s.Spelled given) (hc : s.Consistent) {schema : Schema}
    (hentity : schema ∈ Schema.entities) {key : Key} {record : Record}
    (hheld : s.environment.held schema.table key = .ok (some record)) :
    ∃ subject : Subject, subject.schema = schema ∧ subject.Spells given key record := by
  rw [hc.chronicle.held] at hheld
  have hrecord := List.mem_of_getLast? (Except.ok.inj hheld)
  obtain ⟨first, rest, hversions⟩ := List.exists_cons_of_ne_nil (List.ne_nil_of_mem hrecord)
  have hfirst : (versions s.writes schema.table key).head? = some first := by
    rw [hversions, List.head?_cons]
  obtain ⟨subject, rfl, hspells⟩ := h.first schema hentity key first hfirst
  have hlineage := hc.chronicle.history.lineage (Schema.mem_all_of_entity hentity) key
  refine ⟨subject, rfl, hspells.key, hspells.given, fun a ha => ?_⟩
  obtain ⟨hname, hvaries⟩ := Schema.not_varies_identifier hentity (Subject.mem_identifiers hentity ha)
  rw [hlineage.kept hfirst hrecord hname hvaries]
  exact hspells.bytes a ha

end System.Spelled

end Steps

-- As long as no two spellings differ in the case of letters alone, no two keys hold records
-- with the same bytes for an identity.
theorem one_record_per_entity (config : Config) (fileSize : UInt64) (capacity : Capacity)
    (moves : List Move)
    (hcase : ∀ a ∈ moves.flatMap Move.spellings, ∀ b ∈ moves.flatMap Move.spellings,
      Hex.SameButCase a b → a = b) :
    let e := (System.run config fileSize capacity moves).environment
    ∀ schema ∈ Schema.entities, ∀ key key' record record',
      e.held schema.table key = .ok (some record) →
      e.held schema.table key' = .ok (some record') →
      (∀ name ∈ schema.identifiers, record.get? name = record'.get? name) → key = key' := by
  intro e schema hentity key key' record record' hheld hheld' hsame
  have hc := System.Consistent.run config fileSize capacity moves
  have hspelled := System.Spelled.run config fileSize capacity moves fun _ h => h
  obtain ⟨s, rfl, hspells⟩ := hspelled.of_held hc hentity hheld
  obtain ⟨s', hschema, hspells'⟩ := hspelled.of_held hc hentity hheld'
  have heq : s = s' := by
    refine Subject.eq_of_spellings hschema.symm hentity fun name text text' ha ha' => ?_
    obtain ⟨bytes, hdecode, hget⟩ := hspells.bytes _ ha
    obtain ⟨bytes', hdecode', hget'⟩ := hspells'.bytes _ ha'
    rw [hsame name (Subject.mem_identifiers hentity ha), hget'] at hget
    cases hget
    exact hcase text (hspells.given _ ha) text' (hspells'.given _ ha')
      (Hex.sameButCase_of_decode hdecode hdecode')
  subst heq
  exact Except.ok.inj (hspells.key.symm.trans hspells'.key)

theorem one_record_per_entity_block :
    let nothing : (q : Question) → Except String q.Answer := fun _ => .error ""
    let moves : List Move := [.begin (.block "00ff" 1), .advance 0 nothing, .advance 0 nothing,
      .begin (.block "00ff" 2), .advance 1 nothing]
    let e := (System.run Config.minimal 0 .byWeight moves).environment
    let record : Record :=
      OrderedMap.ofList [("_rev", .int 0), ("height", .int 1), ("id", .bytes [0, 255])]
    ∃ key, e.held "blocks" key = .ok (some record) ∧
      ∀ key' record', e.held "blocks" key' = .ok (some record') →
        record.get? "id" = record'.get? "id" → key = key' := by
  intro nothing moves e record
  let key := Key.ofPreimage (Text.bytes "block:00ff")
  have hheld : e.held "blocks" key = .ok (some record) := by decide +kernel
  refine ⟨key, hheld, fun key' record' hheld' hsame => ?_⟩
  refine one_record_per_entity Config.minimal 0 .byWeight moves (by decide +kernel) .block (by decide)
    key key' record record' hheld hheld' fun name hname => ?_
  cases List.mem_singleton.mp (hname : name ∈ ["id"])
  exact hsame

-- A block that is spelled in two ways gets two records.
theorem two_records_of_one_block :
    let nothing : (q : Question) → Except String q.Answer := fun _ => .error ""
    let moves : List Move := [.begin (.block "00FF" 1), .advance 0 nothing, .advance 0 nothing,
      .begin (.block "00ff" 1), .advance 1 nothing, .advance 1 nothing]
    let e := (System.run Config.minimal 0 .byWeight moves).environment
    let record : Record :=
      OrderedMap.ofList [("_rev", .int 0), ("height", .int 1), ("id", .bytes [0, 255])]
    let upper := Key.ofPreimage (Text.bytes "block:00FF")
    let lower := Key.ofPreimage (Text.bytes "block:00ff")
    upper ≠ lower ∧ e.held "blocks" upper = .ok (some record) ∧
      e.held "blocks" lower = .ok (some record) := by
  decide +kernel

end LightningRecords

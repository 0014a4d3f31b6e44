import LightningRecords.Proofs.Procedure.Calls
import LightningRecords.Proofs.Store.Room

namespace LightningRecords

namespace Schema

variable {schema : Schema} {original fresh previous updates after : Record}

-- A first record has what it was made of, besides its revision.
theorem settled_of_created (hmutable : Record.revisionAttribute ∉ schema.mutable)
    (revision : Value) :
    schema.Settled none fresh (fresh.insert Record.revisionAttribute revision) := by
  intro name hname
  have hne : name ≠ Record.revisionAttribute := fun heq => hmutable (heq ▸ hname)
  exact .inl (OrderedMap.get?_insert_of_ne _ _ hne)

theorem settled_of_follows (hmutable : Record.revisionAttribute ∉ schema.mutable)
    (hexchanges : Outcome.Exchanges schema original fresh previous updates)
    (hfollows : Outcome.Follows original previous updates after) :
    schema.Settled (some original) fresh after := by
  intro name hname
  have hne : name ≠ Record.revisionAttribute := fun heq => hmutable (heq ▸ hname)
  have hafter := hfollows.attributes name hne
  by_cases halike : Difference.Alike (original.get? name) (fresh.get? name)
  · have hupdates : updates.get? name = none := by
      apply Option.eq_none_iff_forall_ne_some.mpr
      intro value hvalue
      exact ((hexchanges.updates name value).mp hvalue).2.1 halike
    have hprevious : previous.get? name = none := by
      apply Option.eq_none_iff_forall_ne_some.mpr
      intro value hvalue
      exact ((hexchanges.previous name value).mp hvalue).2.1 halike
    refine .inr ⟨?_, halike⟩
    rw [hafter, hupdates]
    simp [OrderedMap.contains, hprevious, stored?]
  · left
    cases hfresh : fresh.get? name with
    | some value =>
      have hupdates := (hexchanges.updates name value).mpr ⟨hname, halike, hfresh⟩
      rw [hafter, hupdates, Option.some_or]
    | none =>
      have hupdates : updates.get? name = none := by
        apply Option.eq_none_iff_forall_ne_some.mpr
        intro value hvalue
        rw [((hexchanges.updates name value).mp hvalue).2.2] at hfresh
        cases hfresh
      cases horiginal : original.get? name with
      | none => simp [hafter, hupdates, horiginal]
      | some value =>
        have hprevious := (hexchanges.previous name value).mpr ⟨hname, halike, horiginal⟩
        simp [hafter, hupdates, OrderedMap.contains, hprevious]

end Schema

namespace Procedure

variable {answers : (q : Question) → Except String q.Answer} {schema : Schema} {key : Key}
  {build : Option Record → Except SyncError (Option Record)} {outcome : Outcome}
  {e e' : Environment}

-- Runs a procedure out of an environment, with every question's answer settled.
def execute {α : Type} (answers : (q : Question) → Except String q.Answer) (p : Procedure α)
    (e : Environment) : Except SyncError α × Environment :=
  p.run.run (Environment.serve answers) e

theorem execute_ofExcept {α β : Type} (x : Except SyncError β) (f : β → Procedure α) :
    execute answers (ofExcept x >>= f) e =
      match x with
      | .ok b => execute answers (f b) e
      | .error error => (.error error, e) := by
  cases x <;> rfl

theorem execute_bind_eq_ok_iff {α β : Type} {p : Procedure α} {f : α → Procedure β} {b : β} :
    execute answers (p >>= f) e = (.ok b, e') ↔
      ∃ a e₁, execute answers p e = (.ok a, e₁) ∧ execute answers (f a) e₁ = (.ok b, e') := by
  have hrun : execute answers (p >>= f) e = Interaction.run (Environment.serve answers)
      (Interaction.bind p.run (ExceptT.bindCont f)) e := rfl
  rw [hrun, Interaction.run_bind]
  change (ExceptT.bindCont f (execute answers p e).1).run _ (execute answers p e).2 = _ ↔ _
  rcases execute answers p e with ⟨result, after⟩
  cases result with
  | error error =>
    constructor
    · intro h
      cases h
    · rintro ⟨_, _, h, _⟩
      cases h
  | ok a =>
    constructor
    · exact fun h => ⟨a, after, rfl, h⟩
    · rintro ⟨_, _, h, hnext⟩
      cases h
      exact hnext

theorem execute_request {α : Type} (r : Request) (f : r.Reply → Procedure α) :
    execute answers (request r >>= f) e =
      execute answers (f (e.serve answers r).1) (e.serve answers r).2 := rfl

theorem execute_ask {α : Type} {entity : String} {question : Question}
    (f : question.Answer → Procedure α) :
    execute answers (ask entity question >>= f) e =
      match answers question with
      | .ok answer => execute answers (f answer) e
      | .error message => (.error (.source entity message), e) := by
  rw [ask, bind_assoc, execute_request]
  simp only [Environment.serve]
  cases answers question <;> rfl

theorem execute_ask_of_ok {entity : String} {question : Question} {answer : question.Answer}
    (h : answers question = .ok answer) :
    execute answers (ask entity question) e = (.ok answer, e) := by
  rw [← bind_pure (ask entity question), execute_ask, h]
  rfl

theorem execute_load {α : Type} {table : String} (f : Option Record → Procedure α) :
    execute answers (load table key >>= f) e =
      match e.get table key with
      | (.ok stored, e') => execute answers (f stored) e'
      | (.error error, e') => (.error (.store error), e') := by
  rw [load, bind_assoc, execute_request]
  simp only [Environment.serve]
  rcases e.get table key with ⟨reply, after⟩
  cases reply <;> rfl

theorem execute_ofExcept_eq_ok {α β : Type} {a : α} {x : Except SyncError β} {f : β → Procedure α}
    (h : execute answers (ofExcept x >>= f) e = (.ok a, e')) :
    ∃ b, x = .ok b ∧ execute answers (f b) e = (.ok a, e') := by
  cases x with
  | error error => cases h
  | ok b => exact ⟨b, rfl, h⟩

theorem execute_load_eq_ok {α : Type} {a : α} {table : String} {f : Option Record → Procedure α}
    (h : execute answers (load table key >>= f) e = (.ok a, e')) :
    ∃ stored e₁, e.get table key = (.ok stored, e₁) ∧
      execute answers (f stored) e₁ = (.ok a, e') := by
  rw [execute_load] at h
  cases hget : e.get table key with
  | mk reply e₁ =>
    rw [hget] at h
    cases reply with
    | error error => cases h
    | ok stored => exact ⟨stored, e₁, rfl, h⟩

-- What a reconciliation does: nothing, now and ever, or it writes what is settled.
theorem reconcile_eq_ok {stored fresh : Option Record}
    (hmutable : Record.revisionAttribute ∉ schema.mutable)
    (hstorable : ∀ record ∈ fresh, record.Storable)
    (hfirst : stored = none → ∀ record ∈ fresh, schema.Drafts record)
    (hheld : e.held schema.table key = .ok stored)
    (h : execute answers (reconcile schema key stored fresh) e = (.ok outcome, e')) :
    (e' = e ∧ ∀ e, execute answers (reconcile schema key stored fresh) e = (.ok .unchanged, e)) ∨
    ∃ record after, fresh = some record ∧ schema.Settled stored record after ∧
      e.Writes schema.table key after e' ∧ after.Storable := by
  cases fresh with
  | none => cases stored <;> cases h <;> exact .inl ⟨rfl, fun _ => rfl⟩
  | some record =>
    have hrecord := hstorable record rfl
    cases stored with
    | none =>
      have hdrafts := hfirst rfl record rfl
      obtain ⟨rfl, hwrites⟩ := create_eq_ok hdrafts.revision hheld h
      have hdepth : (Value.int Schema.baseRevision).depth ≤ Record.maxValueDepth := Nat.zero_le _
      exact .inr ⟨record, _, rfl, Schema.settled_of_created hmutable _, hwrites,
        hrecord.insert _ hdepth⟩
    | some original =>
      by_cases himmutable : schema.isImmutable
      · simp only [reconcile, himmutable, if_true] at h ⊢
        cases h
        exact .inl ⟨rfl, fun _ => rfl⟩
      · simp only [reconcile, himmutable, Bool.false_eq_true, if_false] at h ⊢
        rcases revise_eq_ok hheld h with
          ⟨hsame, rfl, rfl⟩ | ⟨difference, revision, after, hdifference, rfl, hget, happly, hwrites⟩
        · refine .inl ⟨rfl, fun e => ?_⟩
          rw [execute, revise_run_of_same hsame]
          rfl
        · have hfollows := Outcome.follows_of_apply hrecord hdifference hget happly
          have hsettled := Schema.settled_of_follows hmutable
            ⟨get?_previous_iff hdifference, get?_updated_iff hdifference⟩ hfollows
          exact .inr ⟨record, after, rfl, hsettled, hwrites,
            storable_of_apply hrecord hheld hdifference hget happly⟩

theorem reconcile_of_alike {stored : Record} {fresh : Option Record}
    (h : ∀ record ∈ fresh, ∀ name ∈ schema.mutable,
      Difference.Alike (stored.get? name) (record.get? name)) (e : Environment) :
    execute answers (reconcile schema key (some stored) fresh) e = (.ok .unchanged, e) := by
  cases fresh with
  | none => rfl
  | some record =>
    have hsame := mutableDifference_eq_none_iff.mpr (h record rfl)
    by_cases himmutable : schema.isImmutable
    · simp only [reconcile, himmutable, if_true]
      rfl
    · simp only [reconcile, himmutable, Bool.false_eq_true, if_false]
      rw [execute, revise_run_of_same hsame]
      rfl

-- Reconciles what is stored with a record that is made of it.
def observe (schema : Schema) (key : Key)
    (build : Option Record → Except SyncError (Option Record)) : Procedure Outcome := do
  let stored ← load schema.table key
  let fresh ← ofExcept (build stored)
  reconcile schema key stored fresh

theorem execute_observe {stored fresh : Option Record} {e₁ : Environment}
    (hget : e.get schema.table key = (.ok stored, e₁)) (hbuild : build stored = .ok fresh) :
    execute answers (observe schema key build) e =
      execute answers (reconcile schema key stored fresh) e₁ := by
  rw [observe, execute_load, hget]
  simp only
  rw [execute_ofExcept, hbuild]

theorem observe_again (hmutable : Record.revisionAttribute ∉ schema.mutable)
    (hsteady : schema.Steady build)
    (h : execute answers (observe schema key build) e = (.ok outcome, e')) :
    execute answers (observe schema key build) e' = (.ok .unchanged, e') := by
  obtain ⟨stored, e₁, hget, h⟩ := execute_load_eq_ok h
  obtain ⟨fresh, hbuild, h⟩ := execute_ofExcept_eq_ok h
  have hagain := Environment.get_again hget
  have hheld := Environment.held_of_get hagain
  have hstored : ∀ record ∈ stored, record.Storable := by
    rintro record rfl
    exact Environment.storable_of_held hheld
  have hfresh : ∀ record ∈ fresh, record.Storable := by
    rintro record rfl
    exact hsteady.storable stored record hstored hbuild
  have hfirst : stored = none → ∀ record ∈ fresh, schema.Drafts record := by
    rintro rfl record rfl
    exact hsteady.drafts record hbuild
  rcases reconcile_eq_ok hmutable hfresh hfirst hheld h with
    ⟨rfl, hunchanged⟩ | ⟨record, after, rfl, hsettled, hwrites, hstorable⟩
  · rw [execute_observe hagain hbuild]
    exact hunchanged _
  · have hvalid := Environment.checkTable_of_checked hget
    obtain ⟨again, hrebuild, halike⟩ := hsteady.again stored record after hbuild hsettled
    rw [execute_observe (hwrites.get hstorable hvalid) hrebuild]
    exact reconcile_of_alike halike e'

-- As long as questions are answered alike, what they are asked for might as well be
-- known beforehand.
theorem Reconciles.exists_build {f : Option Record → Procedure Outcome}
    (h : Reconciles schema key f) (answers : (q : Question) → Except String q.Answer) :
    ∃ build, schema.Steady build ∧ ∀ stored e, execute answers (f stored) e =
      execute answers (ofExcept (build stored) >>= reconcile schema key stored) e := by
  induction h with
  | build hsteady => exact ⟨_, hsteady, fun _ _ => rfl⟩
  | @ask entity question f _ ih =>
    cases hreply : answers question with
    | error message =>
      refine ⟨fun _ => .error (.source entity message), .const (by simp), fun stored e => ?_⟩
      rw [execute_ask, hreply, execute_ofExcept]
    | ok answer =>
      obtain ⟨build, hsteady, hbuild⟩ := ih answer
      refine ⟨build, hsteady, fun stored e => ?_⟩
      rw [execute_ask, hreply, ← hbuild]

theorem Observes.again {p : Procedure Outcome} (hp : Observes schema p)
    (hmutable : Record.revisionAttribute ∉ schema.mutable)
    (h : execute answers p e = (.ok outcome, e')) :
    execute answers p e' = (.ok .unchanged, e') := by
  induction hp with
  | fail error => cases h
  | @ask entity question f _ ih =>
    rw [execute_ask] at h ⊢
    cases hreply : answers question with
    | error message =>
      rw [hreply] at h
      cases h
    | ok answer =>
      rw [hreply] at h
      exact ih answer h
  | @load key f hf =>
    obtain ⟨build, hsteady, hbuild⟩ := hf.exists_build answers
    have hsame (e : Environment) : execute answers (Procedure.load schema.table key >>= f) e =
        execute answers (observe schema key build) e := by
      simp only [observe, execute_load, hbuild]
    rw [hsame] at h ⊢
    exact observe_again hmutable hsteady h

section Closing

variable {id : String} {height : UInt32} {closed : ClosedChannel} {stored after : Record}

theorem closes_of_apply (h : Changes.apply (Changes.bumpRevision
      (OrderedMap.insert ∅ "close_height" (.set (.ofUInt32 height)))) stored = .ok after) :
    after.contains "close_height" = true ∧ storedPublicKeys after = storedPublicKeys stored := by
  constructor
  · have hset : (Changes.bumpRevision (OrderedMap.insert ∅ "close_height"
        (.set (.ofUInt32 height)))).get? "close_height" = some (.set (.ofUInt32 height)) := by
      simp [Changes.bumpRevision, Record.revisionAttribute]
    have houtcome := Changes.outcome_of_apply h hset
    rw [OrderedMap.contains, ← Except.ok.inj houtcome]
    rfl
  · have hkept : after.get? "public_keys" = stored.get? "public_keys" := by
      apply Changes.get?_of_apply_of_none h
      simp [Changes.bumpRevision, Record.revisionAttribute]
    simp only [storedPublicKeys, hkept]

theorem closeChannel_of_closed {later : UInt32} (hlater : later ≠ 0)
    (hid : Field.require Schema.channel.kind "channel id" id = .ok ())
    (hkey : Field.key Schema.channel [id] = .ok key)
    (hget : e.get Schema.channel.table key = (.ok (some stored), e))
    (hclosed : stored.contains "close_height" = true) :
    execute answers (closeChannel id later) e =
      (.ok (some ⟨true, storedPublicKeys stored⟩), e) := by
  have hheight : Field.height Schema.channel.kind "close height" later = .ok () := by
    simp [Field.height, hlater]
  simp only [closeChannel, execute_ofExcept, execute_load, hid, hheight, hkey, hget, hclosed,
    if_true]
  rfl

-- Once a channel that is stored was closed, it stays closed at that height.
theorem closeChannel_again
    (h : execute answers (closeChannel id height) e = (.ok (some closed), e'))
    {later : UInt32} (hlater : later ≠ 0) :
    execute answers (closeChannel id later) e' = (.ok (some ⟨true, closed.publicKeys⟩), e') := by
  obtain ⟨_, hid, h⟩ := execute_ofExcept_eq_ok h
  obtain ⟨_, _, h⟩ := execute_ofExcept_eq_ok h
  obtain ⟨key, hkey, h⟩ := execute_ofExcept_eq_ok h
  obtain ⟨stored, e₁, hload, h⟩ := execute_load_eq_ok h
  cases stored with
  | none => cases h
  | some stored =>
    have hagain := Environment.get_again hload
    simp only at h
    by_cases hclosed : stored.contains "close_height"
    · simp only [hclosed, if_true] at h
      cases h
      exact closeChannel_of_closed hlater hid hkey hagain hclosed
    · simp only [hclosed, Bool.false_eq_true, if_false] at h
      obtain ⟨expected, hexpected, h⟩ := execute_ofExcept_eq_ok h
      obtain ⟨revision, hrevision, rfl⟩ := expectRevision_eq_ok hexpected
      rw [execute, update_run] at h
      obtain ⟨htold, before, after, hbefore, _, happly, hwrites⟩ := settleUpdate_eq_ok h
      cases htold
      rw [Environment.held_of_get hagain] at hbefore
      cases hbefore
      obtain ⟨hafter, hkeys⟩ := closes_of_apply happly
      have hstorable := (revises_closing height).storable happly hrevision
        (Environment.storable_of_held (Environment.held_of_get hagain))
      have hvalid := Environment.checkTable_of_checked hload
      rw [← hkeys]
      exact closeChannel_of_closed hlater hid hkey (hwrites.get hstorable hvalid) hafter

end Closing

end Procedure

namespace Call

-- What became of the record that a call is about. Closing a channel has no outcome.
def outcome? : (c : Call) → c.Result → Option Outcome
  | .closeChannel .. => fun _ => none
  | .node _ | .channel _ | .policy .. | .peer _ | .localChannel .. | .block .. | .forwardHtlc _
  | .paymentHtlc _ | .receiveHtlc _ => some

end Call

open Procedure in
-- What was observed once is not news the next time: if the same call is made again
-- right away, with the same answers to its questions, nothing changes, and a channel
-- that was closed is told to be.
theorem observed_again (answers : (q : Question) → Except String q.Answer) (e e' : Environment) :
    (∀ (c : Call) (result : c.Result) (outcome : Outcome),
      execute answers c.procedure e = (.ok result, e') → c.outcome? result = some outcome →
      ∃ again, execute answers c.procedure e' = (.ok again, e') ∧
        c.outcome? again = some .unchanged) ∧
    ∀ id height closed, execute answers (closeChannel id height) e = (.ok (some closed), e') →
      ∀ later, later ≠ 0 → execute answers (closeChannel id later) e' =
        (.ok (some ⟨true, closed.publicKeys⟩), e') := by
  constructor
  · intro c result outcome h houtcome
    cases c with
    | closeChannel id height => cases houtcome
    | node publicKey =>
      exact ⟨.unchanged, (observes_node publicKey).again (by decide) h, rfl⟩
    | channel id => exact ⟨.unchanged, (observes_channel id).again (by decide) h, rfl⟩
    | policy publicKey channelId =>
      exact ⟨.unchanged, (observes_policy publicKey channelId).again (by decide) h, rfl⟩
    | peer publicKey => exact ⟨.unchanged, (observes_peer publicKey).again (by decide) h, rfl⟩
    | localChannel publicKey transactionId vout =>
      exact ⟨.unchanged, (observes_localChannel publicKey transactionId vout).again (by decide) h,
        rfl⟩
    | block id height => exact ⟨.unchanged, (observes_block id height).again (by decide) h, rfl⟩
    | forwardHtlc htlc => exact ⟨.unchanged, (observes_forwardHtlc htlc).again (by decide) h, rfl⟩
    | paymentHtlc htlc => exact ⟨.unchanged, (observes_paymentHtlc htlc).again (by decide) h, rfl⟩
    | receiveHtlc htlc => exact ⟨.unchanged, (observes_receiveHtlc htlc).again (by decide) h, rfl⟩
  · intro id height closed h later hlater
    exact closeChannel_again h hlater

open Procedure in
theorem observed_again_channel :
    let report : ChannelReport := { id := "1x1x1", capacity := 5, transactionId := "a1" }
    let answers : (q : Question) → Except String q.Answer
      | .channel _ => .ok (some report)
      | _ => .error ""
    let record : Record := OrderedMap.ofList [("capacity", .int 5), ("id", .text "1x1x1"),
      ("public_keys", .list []), ("transaction_id", .bytes [0xA1]), ("transaction_vout", .int 0)]
    let first := execute answers (channel "1x1x1") (Environment.start Config.minimal 0 ∅)
    let second := execute answers (closeChannel "1x1x1" 7) first.2
    first.1 = .ok (.created record) ∧
      execute answers (channel "1x1x1") first.2 = (.ok .unchanged, first.2) ∧
      second.1 = .ok (some ⟨false, []⟩) ∧
      execute answers (closeChannel "1x1x1" 8) second.2 = (.ok (some ⟨true, []⟩), second.2) := by
  intro report answers record first second
  have hcreated : first.1 = .ok (.created record) := by decide +kernel
  have hclosed : second.1 = .ok (some ⟨false, []⟩) := by decide +kernel
  have hobserved := (observed_again answers (Environment.start Config.minimal 0 ∅) first.2).1
  obtain ⟨again, hagain, hunchanged⟩ :=
    hobserved (.channel "1x1x1") _ _ (Prod.ext hcreated rfl) rfl
  cases hunchanged
  have hclosing := (observed_again answers first.2 second.2).2
  exact ⟨hcreated, hagain, hclosed,
    hclosing "1x1x1" 7 ⟨false, []⟩ (Prod.ext hclosed rfl) 8 (by decide)⟩

end LightningRecords

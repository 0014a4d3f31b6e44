import LightningRecords.Proofs.Procedure.Arguments
import LightningRecords.Proofs.Procedure.Behaves

namespace LightningRecords

section Keys

variable {α β : Type} (answers : (q : Question) → Except String q.Answer) (about : Key → Prop)

-- With these answers an interaction looks under such keys only, the first time it looks
-- at what is stored.
def Interaction.Looks : Interaction α → Prop
  | .request (.ask question) next => (next (answers question)).Looks
  | .request (.load _ key) _ => about key
  | _ => True

variable {answers about} {schema : Schema} {key : Key} {entity : String} {question : Question}

theorem Interaction.Looks.bind_ofExcept {x : Except SyncError β} {f : β → Procedure α}
    (h : ∀ b, x = .ok b → (f b).run.Looks answers about) :
    (Procedure.ofExcept x >>= f).run.Looks answers about := by
  cases x with
  | error error => trivial
  | ok b => exact h b rfl

theorem Interaction.Looks.bind_ask {f : question.Answer → Procedure α}
    (h : ∀ answer, answers question = .ok answer → (f answer).run.Looks answers about) :
    (Procedure.ask entity question >>= f).run.Looks answers about := by
  change Interaction.Looks answers about (.request (.ask question) _)
  rw [Interaction.Looks]
  cases hreply : answers question with
  | error message => trivial
  | ok answer => exact h answer hreply

theorem Interaction.Looks.of_bind_ask {f : question.Answer → Procedure α}
    {answer : question.Answer}
    (h : (Procedure.ask entity question >>= f).run.Looks answers about)
    (hreply : answers question = .ok answer) : (f answer).run.Looks answers about := by
  change Interaction.Looks answers about (.request (.ask question) _) at h
  rw [Interaction.Looks, hreply] at h
  exact h

theorem Interaction.Looks.bind_load {f : Option Record → Procedure α} {table : String}
    (h : about key) : (Procedure.load table key >>= f).run.Looks answers about := h

end Keys

-- The local node's own key, if it tells it.
def localKey (answers : (q : Question) → Except String q.Answer) : String :=
  (answers .identity).toOption.getD ""

theorem Call.looks (answers : (q : Question) → Except String q.Answer) :
    (c : Call) → c.procedure.run.Looks answers fun key =>
      Field.key c.schema (c.identity (localKey answers)) = .ok key
  | .node publicKey =>
    .bind_ofExcept fun _ _ => .bind_ofExcept fun _ hkey => .bind_load hkey
  | .channel id => .bind_ofExcept fun _ _ => .bind_ofExcept fun _ hkey => .bind_load hkey
  | .closeChannel id height =>
    .bind_ofExcept fun _ _ => .bind_ofExcept fun _ _ => .bind_ofExcept fun _ hkey => .bind_load hkey
  | .policy publicKey channelId =>
    .bind_ofExcept fun _ _ => .bind_ofExcept fun _ _ => .bind_ofExcept fun _ hkey => .bind_load hkey
  | .peer publicKey => by
    refine .bind_ofExcept fun _ _ => .bind_ask fun self hself => .bind_ofExcept fun _ _ =>
      .bind_ofExcept fun key hkey => .bind_load ?_
    have hlocal : localKey answers = self := by simp [localKey, hself, Except.toOption]
    rw [hlocal]
    exact hkey
  | .localChannel publicKey transactionId vout =>
    .bind_ofExcept fun _ _ => .bind_ofExcept fun _ _ => .bind_ofExcept fun _ hkey => .bind_load hkey
  | .block id height => .bind_ofExcept fun _ _ => .bind_ofExcept fun _ hkey => .bind_load hkey
  | .forwardHtlc htlc =>
    .bind_ofExcept fun _ _ => .bind_ofExcept fun _ _ => .bind_ofExcept fun _ _ =>
      .bind_ofExcept fun _ _ => .bind_ofExcept fun _ _ => .bind_ofExcept fun _ _ =>
      .bind_ofExcept fun _ hkey => .bind_load hkey
  | .paymentHtlc htlc =>
    .bind_ofExcept fun _ _ => .bind_ofExcept fun _ _ => .bind_ofExcept fun _ _ =>
      .bind_ofExcept fun _ _ => .bind_ofExcept fun _ hkey => .bind_load hkey
  | .receiveHtlc htlc =>
    .bind_ofExcept fun _ _ => .bind_ofExcept fun _ _ => .bind_ofExcept fun _ _ =>
      .bind_ofExcept fun _ _ => .bind_ofExcept fun _ hkey => .bind_load hkey

-- What is different about the rows of a store: nothing but what one table has under one
-- key, and that only if there is a change.
structure Environment.Touches (e : Environment) (table : String) (key : Key) (change : Prop)
    (e' : Environment) : Prop where
  others : ∀ other bytes, ¬(other = table ∧ bytes = key.bytes) →
    (e'.contents other).get? bytes = (e.contents other).get? bytes
  changed : (e'.contents table).get? key.bytes ≠ (e.contents table).get? key.bytes ↔ change
  kept : ∀ other bytes, (e.contents other).contains bytes = true →
    (e'.contents other).contains bytes = true

section Rows

variable {e e' : Environment} {table : String} {key : Key} {record : Record}

theorem Environment.get?_of_vacant (h : e.held table key = .ok none) :
    (e.contents table).get? key.bytes = none := by
  simp only [Environment.held, Environment.findRow] at h
  split at h
  · cases hrecord : Environment.decodeRow table _ with
    | error error =>
      rw [hrecord] at h
      cases h
    | ok record =>
      rw [hrecord] at h
      cases h
  · assumption

theorem Environment.touches_of_tables (h : e'.tables = e.tables) {change : Prop}
    (hnone : ¬change) : e.Touches table key change e' := by
  have hsame : ∀ other, e'.contents other = e.contents other := by
    intro other
    rw [Environment.contents, h, Environment.contents]
  refine ⟨fun other bytes _ => by rw [hsame], ?_, fun other bytes hkept => by rwa [hsame]⟩
  rw [hsame]
  exact ⟨fun hne => absurd rfl hne, fun hchange => absurd hchange hnone⟩

theorem Environment.Writes.touches (h : e.Writes table key record e') {change : Prop}
    (hchange : change)
    (hdiffers : (e.contents table).get? key.bytes ≠ some record.encode) :
    e.Touches table key change e' := by
  have hrow : (e'.contents table).get? key.bytes = some record.encode := by
    simp [Environment.contents, h.tables]
  have hothers : ∀ other bytes, ¬(other = table ∧ bytes = key.bytes) →
      (e'.contents other).get? bytes = (e.contents other).get? bytes := by
    intro other bytes hne
    by_cases htable : other = table
    · subst htable
      have hbytes : bytes ≠ key.bytes := fun heq => hne ⟨rfl, heq⟩
      simp [Environment.contents, h.tables, hbytes]
    · simp [Environment.contents, h.tables, htable]
  refine ⟨hothers, ⟨fun _ => hchange, fun _ => ?_⟩, fun other bytes hkept => ?_⟩
  · rw [hrow]
    exact hdiffers.symm
  · by_cases hself : other = table ∧ bytes = key.bytes
    · rw [hself.1, hself.2, OrderedMap.contains, hrow]
      rfl
    · rw [OrderedMap.contains, hothers other bytes hself]
      exact hkept

end Rows

section Frames

variable {α : Type} {schema : Schema} {effect? : α → Option Effect} {key : Key}
  {stored : Option Record} {t : Interaction (Except SyncError α)} {e e₁ : Environment}
  {answers : (q : Question) → Except String q.Answer} {about : Key → Prop}

-- What a run leaves of a store: all rows if it fails, and if it does not, all but one
-- that it tells to have changed.
def Frames (schema : Schema) (effect? : α → Option Effect) (key : Key) (e : Environment)
    (run : Except SyncError α × Environment) : Prop :=
  match run.1 with
  | .error _ => run.2.tables = e.tables
  | .ok result => e.Touches schema.table key ((effect? result).isSome = true) run.2

theorem frames_of_idle {result : α} {e' : Environment} (hidle : effect? result = none)
    (h : e'.tables = e.tables) : Frames schema effect? key e (.ok result, e') :=
  Environment.touches_of_tables h (by simp [hidle])

-- A record is different from the one before it, because its revision is.
theorem differs_of_revises {original after : Record} {revision : Int64} {changes : Changes}
    {allowed : String → Prop} (hheld : e.held schema.table key = .ok (some original))
    (hchanges : changes.Revises allowed) (hrevision : original.revision? = some revision)
    (happly : changes.apply original = .ok after) {e' : Environment}
    (hwrites : e.Writes schema.table key after e') :
    (e.contents schema.table).get? key.bytes ≠ some after.encode := by
  intro hsame
  have hstorable := hchanges.storable happly hrevision (Environment.storable_of_held hheld)
  have hfits : after.encode.length < 2 ^ 64 :=
    Nat.lt_of_le_of_lt hwrites.fits e.mapSize.toNat_lt
  simp only [Environment.held, Environment.findRow, hsame, Environment.decodeRow,
    Record.decode_encode_of_storable hfits hstorable] at hheld
  cases hheld
  obtain ⟨next, hnext, hcount⟩ := hchanges.revision? happly hrevision
  rw [Record.get?_of_revision? hrevision] at hnext
  cases hnext
  omega

theorem frames_of_settles (h : Settles schema effect? key stored t)
    (hheld : e.held schema.table key = .ok stored) :
    Frames schema effect? key e (t.run (Environment.serve answers) e) := by
  induction h with
  | fail error => exact rfl
  | idle hidle => exact frames_of_idle hidle rfl
  | ask _ ih => exact ih _
  | @create fresh created unchanged hstored hdrafts hcreated hunchanged =>
    subst hstored
    simp only [Interaction.run, Environment.serve]
    cases hput : e.put schema.table key
        (fresh.insert Record.revisionAttribute (.int Schema.baseRevision)) (some [schema.unique]) with
    | mk reply e' =>
      cases reply with
      | ok =>
        have hwrites := (Environment.put_eq_ok hput).1
        refine hwrites.touches (by simp [hcreated]) ?_
        rw [Environment.get?_of_vacant hheld]
        exact (Option.some_ne_none _).symm
      | error error =>
        have hkeeps := Environment.put_eq_error hput
        simp only [Procedure.settleCreation]
        split
        · exact frames_of_idle hunchanged hkeeps.tables
        · exact hkeeps.tables
  | @update original revision changes updated effect hstored hrevision hrevises hupdated heffect =>
    subst hstored
    simp only [Interaction.run, Environment.serve]
    cases hupdate : e.update schema.table key changes
        (some (OrderedMap.insert ∅ Record.revisionAttribute (.int revision))) with
    | mk reply e' =>
      cases reply with
      | ok after =>
        obtain ⟨hwrites, before, hbefore, _, happly⟩ := Environment.update_eq_ok hupdate
        rw [hheld] at hbefore
        cases hbefore
        exact hwrites.touches (by simp [hupdated])
          (differs_of_revises hheld hrevises hrevision happly hwrites)
      | error error => exact (Environment.update_eq_error hupdate).tables

theorem Frames.of_tables {run : Except SyncError α × Environment} (htables : e₁.tables = e.tables)
    (h : Frames schema effect? key e₁ run) : Frames schema effect? key e run := by
  have hsame : e₁.contents = e.contents := by
    funext table
    rw [Environment.contents, htables, Environment.contents]
  unfold Frames at h ⊢
  split
  · rename_i error herror
    rw [herror] at h
    exact h.trans htables
  · rename_i result hresult
    rw [hresult] at h
    obtain ⟨hothers, hchanged, hkept⟩ := h
    rw [hsame] at hothers hchanged hkept
    exact ⟨hothers, hchanged, hkept⟩

theorem frames_of_prepares (h : Prepares schema effect? t) (hlooks : t.Looks answers about) :
    (∃ error e', t.run (Environment.serve answers) e = (.error error, e') ∧ e'.tables = e.tables) ∨
      ∃ key, about key ∧ Frames schema effect? key e (t.run (Environment.serve answers) e) := by
  induction h with
  | fail error => exact .inl ⟨error, e, rfl, rfl⟩
  | @ask question next _ ih => exact ih (answers question) hlooks
  | @load key next hok herror =>
    simp only [Interaction.run, Environment.serve]
    cases hget : e.get schema.table key with
    | mk reply e₁ =>
      have htables := (Environment.get_keeps hget).tables
      cases reply with
      | error error =>
        simp only [herror error]
        exact .inl ⟨_, e₁, rfl, htables⟩
      | ok stored =>
        have hheld := Environment.held_of_get (Environment.get_again hget)
        have hstorable : ∀ record ∈ stored, record.Storable := by
          rintro record rfl
          exact Environment.storable_of_held hheld
        exact .inr ⟨key, hlooks, (frames_of_settles (hok stored hstorable) hheld).of_tables htables⟩

end Frames

open Procedure in
-- A call touches no record but the one it is about, and that one if and only if it tells
-- so. A call that fails touches none, and one whose arguments are not as they should be
-- fails on them whatever is stored and whatever is answered.
theorem touches_one_record (c : Call) (answers : (q : Question) → Except String q.Answer)
    (e : Environment) :
    let run := execute answers c.procedure e
    (∀ error, run.1 = .error error → run.2.tables = e.tables) ∧
    (∀ result, run.1 = .ok result → ∃ key,
      Field.key c.schema (c.identity (localKey answers)) = .ok key ∧
      e.Touches c.schema.table key ((c.effect? result).isSome = true) run.2) ∧
    ((∃ a ∈ c.arguments, ¬a.Fits) → ∃ error, error.kind = .validation ∧
      ∀ answers e, execute answers c.procedure e = (.error error, e)) := by
  intro run
  have hframes : (∃ error e', run = (.error error, e') ∧ e'.tables = e.tables) ∨
      ∃ key, Field.key c.schema (c.identity (localKey answers)) = .ok key ∧
        Frames c.schema c.effect? key e run := frames_of_prepares c.prepares (c.looks answers)
  refine ⟨fun error herror => ?_, fun result hresult => ?_, fun ⟨a, ha, hunfit⟩ => ?_⟩
  · rcases hframes with ⟨_, e', hrun, htables⟩ | ⟨key, _, hframe⟩
    · rw [hrun]
      exact htables
    · rw [Frames, herror] at hframe
      exact hframe
  · rcases hframes with ⟨_, e', hrun, _⟩ | ⟨key, hkey, hframe⟩
    · rw [hrun] at hresult
      cases hresult
    · rw [Frames, hresult] at hframe
      exact ⟨key, hkey, hframe⟩
  · rcases c.refuses with hfits | ⟨error, hkind, hrun⟩
    · exact absurd (hfits a ha) hunfit
    · refine ⟨error, hkind, fun answers e => ?_⟩
      rw [execute, hrun]
      rfl

open Procedure in
theorem touches_one_record_channel :
    let report : ChannelReport := { id := "1x1x1", capacity := 5, transactionId := "a1" }
    let answers : (q : Question) → Except String q.Answer
      | .channel _ => .ok (some report)
      | _ => .error ""
    let e := Environment.start Config.minimal 0 ∅
    let run := execute answers (channel "1x1x1") e
    (∃ key, Field.key Schema.channel ["1x1x1"] = .ok key ∧
      (run.2.contents "channels").get? key.bytes ≠ (e.contents "channels").get? key.bytes) ∧
    (execute (fun _ => .error "") (channel "1x1x1") e).2.tables = e.tables ∧
    ∃ error, error.kind = .validation ∧
      ∀ answers e, execute answers (channel "1:1") e = (.error error, e) := by
  intro report answers e run
  let record : Record := OrderedMap.ofList [("capacity", .int 5), ("id", .text "1x1x1"),
    ("public_keys", .list []), ("transaction_id", .bytes [0xA1]), ("transaction_vout", .int 0)]
  have hcreated : run.1 = .ok (.created record) := by decide +kernel
  obtain ⟨key, hkey, htouches⟩ :=
    (touches_one_record (.channel "1x1x1") answers e).2.1 (.created record) hcreated
  have hfails : (execute (fun _ => .error "") (channel "1x1x1") e).1 =
      .error (.source "channel" "") := by decide +kernel
  have hsame := (touches_one_record (.channel "1x1x1") (fun _ => .error "") e).1 _ hfails
  have hcolon : ¬(Argument.name "1:1").Fits := fun hfits => absurd hfits.2 (by decide +kernel)
  have hargument : Argument.name "1:1" ∈ (Call.channel "1:1").arguments := List.mem_singleton_self _
  have hrefused := (touches_one_record (.channel "1:1") answers e).2.2 ⟨_, hargument, hcolon⟩
  exact ⟨⟨key, hkey, htouches.changed.mpr rfl⟩, hsame, hrefused⟩

end LightningRecords

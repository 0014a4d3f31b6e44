import LightningRecords.Proofs.Clients.Behaved
import LightningRecords.Proofs.Clients.Theorems

namespace LightningRecords

-- What is known of a channel for good: where its funds are, once that is known, and
-- at which height it was closed, once it was.
structure Record.Preserves (before after : Record) : Prop where
  funding : before.contains "capacity" = true →
    ∀ name ∈ ChannelReport.funding, after.get? name = before.get? name
  height : ∀ value, before.get? "close_height" = some value →
    after.get? "close_height" = some value

namespace Record.Preserves

variable {a b c : Record}

theorem refl (a : Record) : a.Preserves a := ⟨fun _ _ _ => rfl, fun _ h => h⟩

theorem trans (hab : a.Preserves b) (hbc : b.Preserves c) : a.Preserves c where
  funding := by
    intro hknown name hname
    have hcapacity := hab.funding hknown "capacity" (by decide)
    have hkept : b.contains "capacity" = true := by
      rw [OrderedMap.contains, hcapacity]
      exact hknown
    rw [hbc.funding hkept name hname, hab.funding hknown name hname]
  height := fun value h => hbc.height value (hab.height value h)

end Record.Preserves

theorem Call.Makes.preserves {c : Call} {before after : Record}
    (h : c.Makes (some before) after) (hschema : c.schema = .channel) :
    before.Preserves after := by
  rcases Call.eq_of_channel hschema with ⟨id, rfl⟩ | ⟨id, height, rfl⟩
  · obtain ⟨hunfunded, hothers, _⟩ := h
    refine ⟨fun hknown => ?_, fun value hvalue => ?_⟩
    · rw [OrderedMap.contains, hunfunded] at hknown
      cases hknown
    · rw [hothers "close_height" (by decide) (by decide)]
      exact hvalue
  · obtain ⟨hopen, _, hothers⟩ := h
    refine ⟨fun _ name hname => hothers.get?_funding hname, fun value hvalue => ?_⟩
    rw [hopen] at hvalue
    cases hvalue

theorem Call.Ends.exists_effect {call : Call} {stored : Option Record}
    {reply : Except StoreError Record} {result : Except SyncError call.Result}
    (h : call.Ends stored reply result) {record : Record} (hreply : reply = .ok record) :
    ∃ a effect, result = .ok a ∧ call.effect? a = some effect := by
  cases stored with
  | none =>
    obtain ⟨a, fresh, hresult, heffect, _⟩ := h.created rfl record hreply
    exact ⟨a, .created fresh, hresult, heffect⟩
  | some original =>
    obtain ⟨a, effect, hresult, heffect, _⟩ := h.updated original rfl record hreply
    exact ⟨a, effect, hresult, heffect⟩

theorem Call.eq_of_ofClosing {closed : Option ClosedChannel} {effect : Effect}
    (h : ofClosing closed = some effect) : ∃ publicKeys, closed = some ⟨false, publicKeys⟩ := by
  unfold ofClosing at h
  split at h
  · exact ⟨_, rfl⟩
  · cases h

namespace System

-- A call to close the channel of a record has come back, and tells that it was this
-- call that closed it.
def Closed (s : System) (i : Nat) (key : Key) (height : UInt32) : Prop :=
  ∃ id loaded write publicKeys, Field.key Schema.channel [id] = .ok key ∧
    s.visits[i]? =
      some ⟨.closeChannel id height, loaded, write, .done (.ok (some ⟨false, publicKeys⟩))⟩

-- The write that closed it: no height was stored before, and this one is after.
structure Closing (s : System) (key : Key) (height : UInt32) (earlier : List Write) (w : Write)
    (later : List Write) : Prop where
  split : s.writes = earlier ++ w :: later
  before : ∀ record, (versions earlier Schema.channel.table key).getLast? = some record →
    record.get? "close_height" = none
  after : ∃ record, (versions (earlier ++ [w]) Schema.channel.table key).getLast? = some record ∧
    record.get? "close_height" = some (.ofUInt32 height)

end System

namespace System.Consistent

variable {s : System} {earlier middle later : List Write} {w : Write} {v : Visit} {key : Key}
  {before : Record}

theorem preserves_step (h : s.Consistent) (hb : s.Behaved) (heq : s.writes = earlier ++ w :: later)
    (hlast : (versions earlier Schema.channel.table key).getLast? = some before) :
    ∃ after, (versions (earlier ++ [w]) Schema.channel.table key).getLast? = some after ∧
      before.Preserves after := by
  rw [versions_append]
  split
  · rename_i hplace
    obtain ⟨htable, rfl⟩ := hplace
    cases hreply : w.reply with
    | error error => exact ⟨before, by simpa [Except.toOption] using hlast, .refl before⟩
    | ok after =>
      obtain ⟨v, hmade⟩ := h.made hb heq hreply
      have hkind := Schema.eq_of_table_eq v.call.schema_mem (by decide)
        (hmade.table.trans htable)
      have hmakes := hmade.makes
      rw [htable, hlast] at hmakes
      exact ⟨after, by simp [Except.toOption], hmakes.preserves hkind⟩
  · exact ⟨before, by simpa using hlast, .refl before⟩

-- By induction over the writes that come between.
theorem preserves (h : s.Consistent) (hb : s.Behaved)
    (heq : s.writes = earlier ++ (middle ++ later))
    (hlast : (versions earlier Schema.channel.table key).getLast? = some before) :
    ∃ after, (versions (earlier ++ middle) Schema.channel.table key).getLast? = some after ∧
      before.Preserves after := by
  induction middle generalizing earlier before with
  | nil => exact ⟨before, by rwa [List.append_nil], .refl before⟩
  | cons w rest ih =>
    obtain ⟨next, hnext, hfirst⟩ := h.preserves_step hb heq hlast
    rw [List.cons_append, List.append_cons] at heq
    rw [List.append_cons]
    obtain ⟨after, hafter, hrest⟩ := ih heq hnext
    exact ⟨after, hafter, hfirst.trans hrest⟩

-- A write of a call that closes a channel, and that call has come back.
theorem closed_of_made (h : s.Consistent) {stored : Option Record} {record : Record}
    (hmade : s.Made w v stored record) {id : String} {height : UInt32}
    (hcall : v.call = .closeChannel id height) : s.Closed w.visit w.key height := by
  obtain ⟨call, loaded, write, rest⟩ := v
  cases hcall
  obtain ⟨_, hkey⟩ := hmade.about
  obtain ⟨_, result, _, _, _, hrest, hends⟩ := h.settled_of_write hmade.visit hmade.write
  obtain ⟨closed, effect, hresult, heffect⟩ := hends.exists_effect hmade.reply
  obtain ⟨publicKeys, hclosed⟩ := Call.eq_of_ofClosing heffect
  refine ⟨id, loaded, write, publicKeys, hkey, ?_⟩
  rw [hmade.visit, ← hclosed, ← hresult]
  exact congrArg (fun rest => some (Visit.mk _ loaded write rest)) hrest

theorem closing_of_closed (h : s.Consistent) (hb : s.Behaved) {i : Nat} {height : UInt32}
    (hclosed : s.Closed i key height) :
    ∃ earlier w later, w.visit = i ∧ s.Closing key height earlier w later := by
  obtain ⟨id, loaded, write, publicKeys, hkey, hv⟩ := hclosed
  have heffect : (Call.closeChannel id height).effect? (some ⟨false, publicKeys⟩) =
      some .closed := rfl
  obtain ⟨w, hmem, _, record, hvisit, _, htable, _, _, hreply, _⟩ :=
    h.write_of_effect hv rfl heffect
  obtain ⟨earlier, later, heq⟩ := List.append_of_mem hmem
  obtain ⟨v, hmade⟩ := h.made hb heq hreply
  have hsame := hmade.visit
  rw [hvisit, hv] at hsame
  cases hsame
  obtain ⟨_, habout⟩ := hmade.about
  cases hkey.symm.trans habout
  have hplace : w.table = Schema.channel.table := htable
  have hmakes : (Call.closeChannel id height).Makes
      (versions earlier Schema.channel.table w.key).getLast? record := by
    rw [← hplace]
    exact hmade.makes
  cases hlast : (versions earlier Schema.channel.table w.key).getLast? with
  | none =>
    rw [hlast] at hmakes
    exact hmakes.elim
  | some before =>
    rw [hlast] at hmakes
    obtain ⟨hopen, hheight, _⟩ := hmakes
    refine ⟨earlier, w, later, hvisit, heq, ?_, record, ?_, hheight⟩
    · intro found hfound
      rw [hlast] at hfound
      cases hfound
      exact hopen
    · rw [versions_append, if_pos ⟨hplace, rfl⟩, hreply]
      simp [Except.toOption]

-- From then on the height stands.
theorem height_of_closing (h : s.Consistent) (hb : s.Behaved) {height : UInt32}
    {rest : List Write} (hclosing : s.Closing key height earlier w (middle ++ rest)) :
    ∃ record, (versions (earlier ++ w :: middle) Schema.channel.table key).getLast? =
      some record ∧ record.get? "close_height" = some (.ofUInt32 height) := by
  obtain ⟨before, hlast, hheight⟩ := hclosing.after
  have heq := hclosing.split
  rw [List.append_cons] at heq ⊢
  obtain ⟨after, hafter, hpreserves⟩ := h.preserves hb heq hlast
  exact ⟨after, hafter, hpreserves.height _ hheight⟩

theorem held_of_closed (h : s.Consistent) (hb : s.Behaved) {i : Nat} {height : UInt32}
    (hclosed : s.Closed i key height) :
    ∃ record, s.environment.held Schema.channel.table key = .ok (some record) ∧
      record.get? "close_height" = some (.ofUInt32 height) := by
  obtain ⟨earlier, w, rest, _, hclosing⟩ := h.closing_of_closed hb hclosed
  have heq := hclosing.split
  rw [← List.append_nil rest] at hclosing
  obtain ⟨record, hlast, hheight⟩ := h.height_of_closing hb hclosing
  rw [← heq] at hlast
  exact ⟨record, by rw [h.chronicle.held, hlast], hheight⟩

-- Of two closing writes neither comes after the other.
theorem not_closing_after (h : s.Consistent) (hb : s.Behaved) {height height' : UInt32}
    {w' : Write} (hclosing : s.Closing key height earlier w (middle ++ w' :: later)) :
    ¬s.Closing key height' (earlier ++ w :: middle) w' later := by
  intro hclosing'
  obtain ⟨record, hlast, hheight⟩ := h.height_of_closing hb hclosing
  rw [hclosing'.before record hlast] at hheight
  cases hheight

theorem closed_single (h : s.Consistent) (hb : s.Behaved) {i j : Nat} {height height' : UInt32}
    (hi : s.Closed i key height) (hj : s.Closed j key height') : i = j := by
  obtain ⟨earlier, w, later, rfl, hw⟩ := h.closing_of_closed hb hi
  obtain ⟨earlier', w', later', rfl, hw'⟩ := h.closing_of_closed hb hj
  have heq := hw.split.symm.trans hw'.split
  rcases List.append_eq_append_iff.mp heq with ⟨middle, rfl, hlater⟩ | ⟨middle, rfl, hlater⟩
  · cases middle with
    | nil =>
      cases hlater
      rfl
    | cons other middle =>
      cases hlater
      exact absurd hw' (h.not_closing_after hb hw)
  · cases middle with
    | nil =>
      cases hlater
      rfl
    | cons other middle =>
      cases hlater
      exact absurd hw (h.not_closing_after hb hw')

-- A stored height is one that a call has told to have set.
theorem closed_of_height (h : s.Consistent) (hb : s.Behaved) {record : Record}
    (hrecord : record ∈ versions s.writes Schema.channel.table key) :
    ∀ value, record.get? "close_height" = some value →
      ∃ i height, s.Closed i key height ∧ value = .ofUInt32 height := by
  refine h.forall_versions (P := fun record => ∀ value, record.get? "close_height" = some value →
    ∃ i height, s.Closed i key height ∧ value = .ofUInt32 height) hb (by decide) key ?_ record
    hrecord
  intro w v stored record hkey hkind hmade hstored value hvalue
  have hmakes := hmade.makes
  rcases Call.eq_of_channel hkind with ⟨id, hcall⟩ | ⟨id, height, hcall⟩
  · rw [hcall] at hmakes
    cases stored with
    | none =>
      rw [hmakes.2] at hvalue
      cases hvalue
    | some original =>
      rw [hmakes.2.1 "close_height" (by decide) (by decide)] at hvalue
      exact hstored original rfl value hvalue
  · rw [hcall] at hmakes
    cases stored with
    | none => exact hmakes.elim
    | some original =>
      rw [hmakes.2.1, Option.some.injEq] at hvalue
      rw [← hkey]
      exact ⟨w.visit, height, h.closed_of_made hmade hcall, hvalue.symm⟩

-- What a write does to a channel's record that was there, by who asked for it.
theorem apart (h : s.Consistent) (hb : s.Behaved) (heq : s.writes = earlier ++ w :: later)
    (htable : w.table = Schema.channel.table) (hkey : w.key = key) {after : Record}
    (hlast : (versions earlier Schema.channel.table key).getLast? = some before)
    (hreply : w.reply = .ok after) :
    ∃ v, s.visits[w.visit]? = some v ∧ v.call.About key ∧
      ((∃ id, v.call = .channel id ∧ before.contains "capacity" = false ∧
          before.AgreeBut ChannelReport.funding after) ∨
        ∃ id height, v.call = .closeChannel id height ∧ before.contains "close_height" = false ∧
          before.AgreeBut ["close_height"] after) := by
  subst hkey
  obtain ⟨v, hmade⟩ := h.made hb heq hreply
  have hmakes := hmade.makes
  rw [htable, hlast] at hmakes
  refine ⟨v, hmade.visit, hmade.about, ?_⟩
  have hkind := Schema.eq_of_table_eq v.call.schema_mem (by decide) (hmade.table.trans htable)
  rcases Call.eq_of_channel hkind with ⟨id, hcall⟩ | ⟨id, height, hcall⟩
  · rw [hcall] at hmakes
    obtain ⟨hunfunded, hothers, _⟩ := hmakes
    exact .inl ⟨id, hcall, by simp [OrderedMap.contains, hunfunded], hothers⟩
  · rw [hcall] at hmakes
    obtain ⟨hopen, _, hothers⟩ := hmakes
    exact .inr ⟨id, height, hcall, by simp [OrderedMap.contains, hopen], hothers⟩

end System.Consistent

theorem System.writes_prefix_step (s : System) (move : Move) :
    s.writes <+: (s.step move).writes := by
  cases move with
  | begin call => exact List.prefix_rfl
  | advance i answers =>
    simp only [step]
    split
    · exact List.prefix_rfl
    · split
      · exact List.prefix_rfl
      · exact List.prefix_append _ _

theorem System.writes_prefix_run (s : System) (later : List Move) :
    s.writes <+: (later.foldl step s).writes := by
  induction later generalizing s with
  | nil => exact List.prefix_rfl
  | cons move rest ih => exact (s.writes_prefix_step move).trans (ih _)

section Later

variable {s s' : System} {more : List Write} {key : Key} {before : Record} (h : s.Consistent)
  (h' : s'.Consistent) (hb' : s'.Behaved) (hmore : s.writes ++ more = s'.writes)
  (hheld : s.environment.held Schema.channel.table key = .ok (some before))

include h h' hb' hmore hheld

theorem System.Consistent.held_later :
    ∃ after, s'.environment.held Schema.channel.table key = .ok (some after) ∧
      before.Preserves after := by
  rw [h.chronicle.held] at hheld
  have heq : s'.writes = s.writes ++ (more ++ []) := by rw [List.append_nil, hmore]
  obtain ⟨after, hafter, hpreserves⟩ := h'.preserves hb' heq (Except.ok.inj hheld)
  rw [hmore] at hafter
  exact ⟨after, by rw [h'.chronicle.held, hafter], hpreserves⟩

-- Over a capacity that is stored no report is written.
theorem System.Consistent.closing_of_funded (hknown : before.contains "capacity" = true)
    {w : Write} (hw : w ∈ more) (htable : w.table = Schema.channel.table) (hkey : w.key = key)
    (hdone : w.reply.isOk = true) :
    ∃ v, s'.visits[w.visit]? = some v ∧ ∃ id height, v.call = .closeChannel id height := by
  rw [h.chronicle.held] at hheld
  obtain ⟨middle, rest, rfl⟩ := List.append_of_mem hw
  obtain ⟨now, hnow, hpreserves⟩ := h'.preserves hb' hmore.symm (Except.ok.inj hheld)
  have heq : s'.writes = (s.writes ++ middle) ++ w :: rest := by
    rw [← hmore, List.append_assoc]
  cases hreply : w.reply with
  | error error =>
    rw [hreply] at hdone
    cases hdone
  | ok after =>
    obtain ⟨v, hv, _, hwho⟩ := h'.apart hb' heq htable hkey hnow hreply
    rcases hwho with ⟨id, _, hunfunded, _⟩ | ⟨id, height, hcall, _, _⟩
    · have hcapacity := hpreserves.funding hknown "capacity" (by decide)
      rw [OrderedMap.contains, hcapacity] at hunfunded
      rw [OrderedMap.contains, hunfunded] at hknown
      cases hknown
    · exact ⟨v, hv, id, height, hcall⟩

end Later

-- What becomes of a channel's record from one state to a later one. What is known of
-- its funds stays, and no report is written down any more; so does the height at which
-- it was closed, and it is that of the one call that tells to have closed it. Neither
-- reports nor closings touch what the others write.
structure System.KeepsChannel (s s' : System) (key : Key) : Prop where
  funding : ∀ before, s.environment.held Schema.channel.table key = .ok (some before) →
    before.contains "capacity" = true →
      ∃ after, s'.environment.held Schema.channel.table key = .ok (some after) ∧
        ∀ name ∈ ChannelReport.funding, after.get? name = before.get? name
  reported : ∀ before, s.environment.held Schema.channel.table key = .ok (some before) →
    before.contains "capacity" = true → ∀ w ∈ s'.writes.drop s.writes.length,
      w.table = Schema.channel.table → w.key = key → w.reply.isOk = true →
        ∃ v, s'.visits[w.visit]? = some v ∧ ∃ id height, v.call = .closeChannel id height
  height : ∀ before value, s.environment.held Schema.channel.table key = .ok (some before) →
    before.get? "close_height" = some value →
      ∃ after, s'.environment.held Schema.channel.table key = .ok (some after) ∧
        after.get? "close_height" = some value
  single : ∀ i j height height', s'.Closed i key height → s'.Closed j key height' → i = j
  closed : ∀ value, (∃ record,
    s'.environment.held Schema.channel.table key = .ok (some record) ∧
      record.get? "close_height" = some value) ↔
        ∃ i height, s'.Closed i key height ∧ value = .ofUInt32 height
  apart : ∀ w ∈ s'.writes, w.table = Schema.channel.table → w.key = key →
    ∀ before after, w.before = .ok (some before) → w.reply = .ok after →
      ∃ v, s'.visits[w.visit]? = some v ∧ v.call.About key ∧
        ((∃ id, v.call = .channel id ∧ before.contains "capacity" = false ∧
            before.AgreeBut ChannelReport.funding after) ∨
          ∃ id height, v.call = .closeChannel id height ∧
            before.contains "close_height" = false ∧ before.AgreeBut ["close_height"] after)

theorem channel_facts_once (config : Config) (fileSize : UInt64) (capacity : Capacity)
    (moves later : List Move) (key : Key) :
    (System.run config fileSize capacity moves).KeepsChannel
      (System.run config fileSize capacity (moves ++ later)) key := by
  have h := System.Consistent.run config fileSize capacity moves
  have h' := System.Consistent.run config fileSize capacity (moves ++ later)
  have hb' := System.Consistent.behaved_run config fileSize capacity (moves ++ later)
  have hprefix := (System.run config fileSize capacity moves).writes_prefix_run later
  rw [System.run, ← List.foldl_append, ← System.run, ← System.run] at hprefix
  generalize System.run config fileSize capacity moves = s at *
  generalize System.run config fileSize capacity (moves ++ later) = s' at *
  obtain ⟨more, hmore⟩ := hprefix
  refine ⟨?_, ?_, ?_, ?_, ?_, ?_⟩
  · intro before hheld hknown
    obtain ⟨after, hafter, hpreserves⟩ := h.held_later h' hb' hmore hheld
    exact ⟨after, hafter, hpreserves.funding hknown⟩
  · intro before hheld hknown w hw htable hkey hdone
    rw [← hmore, List.drop_left] at hw
    exact h.closing_of_funded h' hb' hmore hheld hknown hw htable hkey hdone
  · intro before value hheld hvalue
    obtain ⟨after, hafter, hpreserves⟩ := h.held_later h' hb' hmore hheld
    exact ⟨after, hafter, hpreserves.height value hvalue⟩
  · intro i j height height' hi hj
    exact h'.closed_single hb' hi hj
  · intro value
    constructor
    · rintro ⟨record, hheld, hvalue⟩
      rw [h'.chronicle.held] at hheld
      have hmem := List.mem_of_getLast? (Except.ok.inj hheld)
      exact h'.closed_of_height hb' hmem value hvalue
    · rintro ⟨i, height, hclosed, rfl⟩
      exact h'.held_of_closed hb' hclosed
  · intro w hw htable hkey before after hbefore hreply
    obtain ⟨earlier, rest, heq⟩ := List.append_of_mem hw
    obtain ⟨_, _, _, hfollows⟩ := h'.chronicle.history.follows heq
    have hlast := hfollows.before
    rw [hbefore, htable, hkey] at hlast
    exact h'.apart hb' heq htable hkey (Except.ok.inj hlast).symm hreply

-- Two calls have both found the channel open. The one that is slower to write finds the
-- revision gone.
example :
    let report : ChannelReport := { id := "1x1x1", capacity := 5, transactionId := "a1" }
    let answers : (q : Question) → Except String q.Answer
      | .channel _ => .ok (some report)
      | _ => .error ""
    let s := System.run Config.minimal 0 .byWeight
      [.begin (.channel "1x1x1"), .advance 0 answers, .advance 0 answers, .advance 0 answers,
        .begin (.closeChannel "1x1x1" 7), .begin (.closeChannel "1x1x1" 8), .advance 1 answers,
        .advance 2 answers, .advance 2 answers, .advance 1 answers]
    s.writes.map (fun w => (w.visit, w.reply.isOk)) = [(0, true), (2, true), (1, false)] := by
  decide +kernel

end LightningRecords

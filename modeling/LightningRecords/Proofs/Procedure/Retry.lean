import LightningRecords.Procedure.Retry
import LightningRecords.Proofs.Procedure.Calls
import LightningRecords.Proofs.Procedure.Runs

namespace LightningRecords

section Effects

variable {α : Type} {effect? : α → Option Effect} {schema : Schema} {key : Key}
  {stored : Option Record} {t : Interaction (Except SyncError α)} {exchanges : List Exchange}
  {result : Except SyncError α}

-- What is told is what was done: an effect is one write, and all else is none.
def Truthful (effect? : α → Option Effect) (exchanges : List Exchange)
    (result : Except SyncError α) : Prop :=
  if (result.toOption.bind effect?).isSome then WritesOnce exchanges
  else ∀ x ∈ exchanges, x.Quiet

theorem Truthful.cons {x : Exchange} (hx : x.Quiet) (h : Truthful effect? exchanges result) :
    Truthful effect? (x :: exchanges) result := by
  simp only [Truthful] at h ⊢
  split
  · rename_i heffect
    rw [if_pos heffect] at h
    obtain ⟨earlier, write, later, rfl, hwrite, hstores, hquiet⟩ := h
    exact ⟨x :: earlier, write, later, rfl, hwrite, hstores,
      List.forall_mem_cons.mpr ⟨hx, hquiet⟩⟩
  · rename_i hnone
    rw [if_neg hnone] at h
    exact List.forall_mem_cons.mpr ⟨hx, h⟩

theorem truthful_error (error : SyncError) (h : ∀ x ∈ exchanges, x.Quiet) :
    Truthful effect? exchanges (.error error) := h

theorem truthful_idle {a : α} (ha : effect? a = none) (h : ∀ x ∈ exchanges, x.Quiet) :
    Truthful effect? exchanges (.ok a) := by
  simpa [Truthful, Except.toOption, ha] using h

theorem truthful_write {a : α} {effect : Effect} {x : Exchange} (ha : effect? a = some effect)
    (h : x.commits = true) : Truthful effect? [x] (.ok a) := by
  simp only [Truthful, Except.toOption, Option.bind_some, ha, Option.isSome_some, if_true]
  exact ⟨[], x, [], rfl, h, Exchange.stores_of_commits h, by simp⟩

theorem truthful_of_settles (h : Settles schema effect? key stored t)
    (hran : t.Ran exchanges result) : Truthful effect? exchanges result := by
  induction h generalizing exchanges with
  | fail error =>
    cases hran
    exact truthful_error error (by simp)
  | idle hidle =>
    cases hran
    exact truthful_idle hidle (by simp)
  | ask _ ih =>
    cases hran with
    | request answers before hran =>
      exact (ih _ hran).cons (Exchange.quiet_of_not_commits rfl)
  | @create fresh created unchanged hstored hdrafts hcreated hunchanged =>
    cases hran with
    | request answers before hran =>
      cases hran
      let x : Exchange := ⟨.put schema.table key
        (fresh.insert Record.revisionAttribute (.int Schema.baseRevision)) [schema.unique],
        answers, before⟩
      change Truthful effect? [x] (Procedure.settleCreation schema created unchanged x.reply)
      cases hreply : x.reply with
      | ok => exact truthful_write hcreated (congrArg Except.isOk hreply)
      | error error =>
        have hquiet : x.Quiet := Exchange.quiet_of_not_commits (congrArg Except.isOk hreply)
        simp only [Procedure.settleCreation]
        split
        · exact truthful_idle hunchanged (by simpa using hquiet)
        · exact truthful_error _ (by simpa using hquiet)
  | @update original revision changes updated effect hstored hrevision hrevises hupdated heffect =>
    cases hran with
    | request answers before hran =>
      cases hran
      let x : Exchange := ⟨.update schema.table key changes
        (OrderedMap.insert ∅ Record.revisionAttribute (.int revision)), answers, before⟩
      change Truthful effect? [x] (Procedure.settleUpdate updated x.reply)
      cases hreply : x.reply with
      | ok => exact truthful_write hupdated (congrArg Except.isOk hreply)
      | error error =>
        have hquiet : x.Quiet := Exchange.quiet_of_not_commits (congrArg Except.isOk hreply)
        exact truthful_error _ (by simpa using hquiet)

theorem truthful_of_prepares (h : Prepares schema effect? t) (hran : t.Ran exchanges result) :
    Truthful effect? exchanges result := by
  induction h generalizing exchanges with
  | fail error =>
    cases hran
    exact truthful_error error (by simp)
  | ask _ ih =>
    cases hran with
    | request answers before hran =>
      exact (ih _ hran).cons (Exchange.quiet_of_not_commits rfl)
  | @load key next hok herror =>
    cases hran with
    | request answers before hran =>
      refine Truthful.cons (Exchange.quiet_of_not_commits rfl) ?_
      cases hget : before.get schema.table key with
      | mk reply after =>
        simp only [Environment.serve, hget] at hran
        cases reply with
        | error error =>
          rw [herror error] at hran
          cases hran
          exact truthful_error _ (by simp)
        | ok stored =>
          refine truthful_of_settles (hok stored ?_) hran
          rintro record rfl
          exact Environment.storable_of_held (Environment.held_of_get hget)

end Effects

-- One attempt at a call: its exchanges and its result, and the wait after it.
structure Attempt (α : Type) where
  exchanges : List Exchange
  result : Except SyncError α
  waits : List Exchange

-- The attempt is a run of the interaction, and nothing was asked for in the wait.
structure Attempt.Tries {α : Type} (t : Interaction (Except SyncError α)) (a : Attempt α) :
    Prop where
  ran : t.Ran a.exchanges a.result
  waited : ∀ x ∈ a.waits, ∃ nanoseconds, x.request = .pause nanoseconds

theorem Exchange.quiet_of_pause {x : Exchange} {nanoseconds : Nat}
    (h : x.request = .pause nanoseconds) : x.Quiet := by
  obtain ⟨r, answers, before⟩ := x
  cases h
  exact Exchange.quiet_of_not_commits rfl

-- All the exchanges of attempts made one after another.
def Attempt.all {α : Type} (attempts : List (Attempt α)) : List Exchange :=
  attempts.flatMap fun a => a.exchanges ++ a.waits

section Attempts

variable {α : Type} {t : Interaction (Except SyncError α)} {exchanges : List Exchange}
  {result : Except SyncError α}

-- How a loop of attempts goes: all but the last fail, and what the last comes to
-- is the result, unless the loop gives up on its error.
structure Loops (t : Interaction (Except SyncError α)) (exchanges : List Exchange)
    (result : Except SyncError α) (earlier : List (Attempt α)) (last : Attempt α) : Prop where
  exchanges : exchanges = Attempt.all (earlier ++ [last])
  tries : ∀ a ∈ earlier ++ [last], a.Tries t
  fails : ∀ a ∈ earlier, ∃ error, a.result = .error error
  ends : last.result = result ∨
    ∃ error final, last.result = .error error ∧ result = .error final

theorem loops_once {last : Except SyncError α} (h : t.Ran exchanges last)
    (hends : last = result ∨ ∃ error final, last = .error error ∧ result = .error final) :
    Loops t exchanges result [] ⟨exchanges, last, []⟩ where
  exchanges := by simp [Attempt.all]
  tries := by
    rintro a ha
    cases List.mem_singleton.mp ha
    exact ⟨h, by simp⟩
  fails := by simp
  ends := hends

theorem Loops.again {first waits : List Exchange} {error : SyncError} {earlier : List (Attempt α)}
    {last : Attempt α} (hfirst : t.Ran first (.error error))
    (hwaits : ∀ x ∈ waits, ∃ nanoseconds, x.request = .pause nanoseconds)
    (h : Loops t exchanges result earlier last) :
    Loops t (first ++ waits ++ exchanges) result
      (⟨first, .error error, waits⟩ :: earlier) last where
  exchanges := by
    rw [h.exchanges]
    rfl
  tries := List.forall_mem_cons.mpr ⟨⟨hfirst, hwaits⟩, h.tries⟩
  fails := List.forall_mem_cons.mpr ⟨⟨error, rfl⟩, h.fails⟩
  ends := h.ends

-- Requests that a pause makes.
theorem waits_of_pause {nanoseconds : Nat} {waits : List Exchange} {done : Unit}
    (h : (Interaction.request (.pause nanoseconds) .done).Ran waits done) :
    ∀ x ∈ waits, ∃ nanoseconds, x.request = .pause nanoseconds := by
  cases h with
  | request answers before hdone =>
    cases hdone
    simp

variable {policy : RetryPolicy} {draw : Nat → Nat} {left : Nat}

-- An attempt is the last one, or it failed and others are left.
theorem attempts_step
    (h : (attempts policy draw (fun delay => .request (.pause delay) .done) t left).Ran
      exchanges result) :
    (∃ last, Loops t exchanges result [] last) ∨
      ∃ first waits rest error fewer, left = fewer + 1 ∧ exchanges = first ++ waits ++ rest ∧
        t.Ran first (.error error) ∧ (∀ x ∈ waits, ∃ nanoseconds, x.request = .pause nanoseconds) ∧
        (attempts policy draw (fun delay => .request (.pause delay) .done) t fewer).Ran
          rest result := by
  rw [attempts] at h
  obtain ⟨first, rest, reply, rfl, hfirst, h⟩ := Interaction.Ran.of_bind h
  cases reply with
  | ok a =>
    cases h
    rw [List.append_nil]
    exact .inl ⟨_, loops_once hfirst (.inl rfl)⟩
  | error error =>
    simp only at h
    split at h
    · cases h
      rw [List.append_nil]
      exact .inl ⟨_, loops_once hfirst (.inl rfl)⟩
    · cases left with
      | zero =>
        cases h
        rw [List.append_nil]
        exact .inl ⟨_, loops_once hfirst (.inr ⟨error, _, rfl, rfl⟩)⟩
      | succ fewer =>
        simp only at h
        split at h
        · exact .inr ⟨first, [], rest, error, fewer, rfl, by simp, hfirst, by simp, h⟩
        · obtain ⟨waits, later, _, rfl, hwaits, h⟩ := Interaction.Ran.of_bind h
          exact .inr ⟨first, waits, later, error, fewer, rfl, (List.append_assoc _ _ _).symm,
            hfirst, waits_of_pause hwaits, h⟩

theorem attempts_loop
    (h : (attempts policy draw (fun delay => .request (.pause delay) .done) t left).Ran
      exchanges result) :
    ∃ earlier last, earlier.length ≤ left ∧ Loops t exchanges result earlier last := by
  induction left generalizing exchanges with
  | zero =>
    rcases attempts_step h with ⟨last, hloops⟩ | ⟨_, _, _, _, fewer, hfewer, _⟩
    · exact ⟨[], last, Nat.le_refl 0, hloops⟩
    · cases hfewer
  | succ left ih =>
    rcases attempts_step h with
      ⟨last, hloops⟩ | ⟨_, _, _, error, fewer, hfewer, rfl, hfirst, hwaits, h⟩
    · exact ⟨[], last, Nat.zero_le _, hloops⟩
    · cases hfewer
      obtain ⟨earlier, last, hlength, hloops⟩ := ih h
      exact ⟨_ :: earlier, last, Nat.succ_le_succ hlength, hloops.again hfirst hwaits⟩

variable {effect? : α → Option Effect} {earlier : List (Attempt α)} {last : Attempt α}

theorem Attempt.Tries.quiet_waits {a : Attempt α} (h : a.Tries t) : ∀ x ∈ a.waits, x.Quiet := by
  intro x hx
  obtain ⟨_, hpause⟩ := h.waited x hx
  exact Exchange.quiet_of_pause hpause

theorem Loops.quiet_earlier (h : Loops t exchanges result earlier last)
    (htruthful : ∀ {exchanges result}, t.Ran exchanges result → Truthful effect? exchanges result) :
    ∀ x ∈ Attempt.all earlier, x.Quiet := by
  intro x hx
  obtain ⟨a, ha, hx⟩ := List.mem_flatMap.mp hx
  have htries := h.tries a (List.mem_append_left _ ha)
  obtain ⟨error, herror⟩ := h.fails a ha
  have hquiet := htruthful htries.ran
  rw [herror] at hquiet
  rcases List.mem_append.mp hx with hx | hx
  · exact hquiet x hx
  · exact htries.quiet_waits x hx

theorem Loops.all_eq (h : Loops t exchanges result earlier last) :
    exchanges = Attempt.all earlier ++ (last.exchanges ++ last.waits) := by
  rw [h.exchanges, Attempt.all, List.flatMap_append, List.flatMap_singleton, Attempt.all]

-- A result with an effect is the last attempt's, and so is the one write.
theorem Loops.writesOnce (h : Loops t exchanges result earlier last)
    (htruthful : ∀ {exchanges result}, t.Ran exchanges result → Truthful effect? exchanges result)
    (heffect : (result.toOption.bind effect?).isSome) :
    WritesOnce exchanges ∧ last.result = result ∧ WritesOnce last.exchanges := by
  have htries := h.tries last (by simp)
  have hlast := htruthful htries.ran
  rcases h.ends with hends | ⟨_, final, _, rfl⟩
  · rw [hends, Truthful, if_pos heffect] at hlast
    refine ⟨?_, hends, hlast⟩
    rw [h.all_eq]
    exact hlast.among (h.quiet_earlier htruthful) htries.quiet_waits
  · cases heffect

theorem Loops.quiet (h : Loops t exchanges result earlier last)
    (htruthful : ∀ {exchanges result}, t.Ran exchanges result → Truthful effect? exchanges result)
    (hnone : ¬(result.toOption.bind effect?).isSome) : ∀ x ∈ exchanges, x.Quiet := by
  have htries := h.tries last (by simp)
  have hlast : ∀ x ∈ last.exchanges, x.Quiet := by
    have hlast := htruthful htries.ran
    rcases h.ends with hends | ⟨error, _, herror, _⟩
    · rwa [hends, Truthful, if_neg hnone] at hlast
    · rwa [herror] at hlast
  intro x hx
  rw [h.all_eq] at hx
  simp only [List.mem_append] at hx
  rcases hx with hx | hx | hx
  · exact h.quiet_earlier htruthful x hx
  · exact hlast x hx
  · exact htries.quiet_waits x hx

end Attempts

-- Whatever others write between the attempts and within them, a retried call that
-- tells of an effect has written once, in its last attempt, and what it wrote is
-- stored. One that tells of none, or fails, has written nothing.
theorem retried_writes_once (policy : RetryPolicy) (draw : Nat → Nat) (call : Call)
    (around : Surroundings) (e : Environment) :
    let run := (Procedure.retried policy draw call.procedure).run.run around.serve (e, [])
    let result := run.1
    let exchanges := run.2.2
    ∃ tried : List (Attempt call.Result), tried.length ≤ policy.maxAttempts.toNat ∧
      (∀ a ∈ tried, a.Tries call.procedure.run) ∧ exchanges = Attempt.all tried ∧
      if (result.toOption.bind call.effect?).isSome then
        WritesOnce exchanges ∧ ∃ last ∈ tried.getLast?,
          last.result = result ∧ WritesOnce last.exchanges
      else ∀ x ∈ exchanges, x.Quiet := by
  intro run result exchanges
  obtain ⟨later, hlater, hran⟩ :=
    (Procedure.retried policy draw call.procedure).run.ran_run around e []
  rw [List.nil_append] at hlater
  change exchanges = later at hlater
  change Interaction.Ran _ later result at hran
  rw [← hlater] at hran
  clear_value result exchanges
  change (retry policy draw _ call.procedure.run).Ran exchanges result at hran
  rw [retry] at hran
  split at hran
  · cases hran
    exact ⟨[], Nat.zero_le _, by simp, rfl, by simp [Except.toOption]⟩
  · rename_i hvalid
    obtain ⟨earlier, last, hlength, hloops⟩ := attempts_loop hran
    have hattempts : policy.maxAttempts ≠ 0 := by
      intro hzero
      simp [RetryPolicy.validate, hzero] at hvalid
    have hpositive : policy.maxAttempts.toNat ≠ 0 := fun hzero =>
      hattempts (UInt32.toNat_inj.mp hzero)
    refine ⟨earlier ++ [last], ?_, hloops.tries, hloops.exchanges, ?_⟩
    · rw [List.length_append, List.length_singleton]
      omega
    · split
      · rename_i heffect
        obtain ⟨hall, hends, hlast⟩ :=
          hloops.writesOnce (truthful_of_prepares call.prepares) heffect
        exact ⟨hall, last, by simp, hends, hlast⟩
      · rename_i hnone
        exact hloops.quiet (truthful_of_prepares call.prepares) hnone

end LightningRecords

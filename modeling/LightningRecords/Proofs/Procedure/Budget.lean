import LightningRecords.Procedure.Retry
import Mathlib.Order.Bounds.Basic

namespace LightningRecords

-- Whether a result is the last one, however often a call may be made.
def IsFinal {α : Type} (result : Except SyncError α) : Prop :=
  ∀ error, result = .error error → error.isRetryable = false

-- Whether a result is waited after: another writer was faster, and will soon be done.
def isContended {α : Type} : Except SyncError α → Bool
  | .ok _ => false
  | .error error => error.kind = .conflict && !error.isCapacity

-- What a loop has done so far: how often it has called, and how long it has slept each time.
structure CallLog where
  calls : Nat := 0
  delays : List Nat := []

namespace CallLog

variable {α : Type} (results : Nat → Except SyncError α)

def called (log : CallLog) : CallLog := { log with calls := log.calls + 1 }

def slept (log : CallLog) (delay : Nat) : CallLog := { log with delays := log.delays ++ [delay] }

-- A call that yields one result after another.
def call : StateM CallLog (Except SyncError α) := do
  let log ← getModify called
  return results log.calls

def sleep (delay : Nat) : StateM CallLog Unit := modify (·.slept delay)

@[simp] theorem run_call (log : CallLog) :
    (call results).run log = pure (results log.calls, log.called) := rfl

@[simp] theorem run_sleep (delay : Nat) (log : CallLog) :
    (sleep delay).run log = pure ((), log.slept delay) := rfl

end CallLog

section Steps

variable {α : Type} {policy : RetryPolicy} {draw : Nat → Nat} {results : Nat → Except SyncError α}
  {left : Nat} {log : CallLog} {error : SyncError}

theorem SyncError.isRetryable_iff : error.isRetryable = true ↔ error.kind = .conflict := by
  cases error <;> simp [isRetryable, kind, StoreError.isRetryable]

theorem not_isFinal_iff {result : Except SyncError α} :
    ¬IsFinal result ↔ ∃ error, result = .error error ∧ error.isRetryable = true := by
  simp [IsFinal]

theorem attempts_of_final (h : IsFinal (results log.calls)) :
    (attempts policy draw CallLog.sleep (CallLog.call results) left).run log =
      (results log.calls, log.called) := by
  rw [attempts, StateT.run_bind, CallLog.run_call, pure_bind]
  cases hresult : results log.calls with
  | ok a => rfl
  | error error =>
    simp only [h error hresult]
    rfl

theorem attempts_of_retryable (hresult : results log.calls = .error error)
    (hretry : error.isRetryable = true) :
    (attempts policy draw CallLog.sleep (CallLog.call results) left).run log =
      match left with
      | 0 => (.error (.retriesExhausted policy.maxAttempts error), log.called)
      | fewer + 1 => (attempts policy draw CallLog.sleep (CallLog.call results) fewer).run
          (if isContended (.error error : Except SyncError α) then
            log.called.slept (policy.delay (draw fewer)) else log.called) := by
  have hkind := SyncError.isRetryable_iff.mp hretry
  rw [attempts, StateT.run_bind, CallLog.run_call, pure_bind]
  cases left with
  | zero =>
    simp only [hresult, hretry]
    rfl
  | succ fewer =>
    cases hcapacity : error.isCapacity <;> simp [hresult, hretry, hcapacity, hkind, isContended]

end Steps

section Rounds

variable {α : Type} {policy : RetryPolicy} {draw : Nat → Nat} {results : Nat → Except SyncError α}
  {left retried : Nat} {log between after : CallLog} {result : Except SyncError α}

-- How a loop goes that may make `left` more calls after its next one. It makes `retried` of
-- them, each because the one before could be retried.
structure Rounds (policy : RetryPolicy) (results : Nat → Except SyncError α) (left retried : Nat)
    (log : CallLog) (result : Except SyncError α) (after : CallLog) : Prop where
  budget : retried ≤ left
  fails : ∀ k < retried, ¬IsFinal (results (log.calls + k))
  calls : after.calls = log.calls + retried + 1
  ends : IsFinal (results (log.calls + retried)) ∧ result = results (log.calls + retried) ∨
    retried = left ∧ ∃ last, results (log.calls + retried) = .error last ∧
      last.isRetryable = true ∧ result = .error (.retriesExhausted policy.maxAttempts last)
  waits : ∃ delays, after.delays = log.delays ++ delays ∧
    delays.length = (List.range retried).countP (fun k => isContended (results (log.calls + k))) ∧
    ∀ delay ∈ delays, policy.minDelay ≤ delay ∧ delay ≤ policy.maxDelay

theorem rounds_of_final (h : IsFinal (results log.calls)) :
    Rounds policy results left 0 log (results log.calls) log.called where
  budget := Nat.zero_le left
  fails := by simp
  calls := rfl
  ends := .inl ⟨h, rfl⟩
  waits := ⟨[], by simp [CallLog.called]⟩

theorem rounds_of_exhausted {last : SyncError} (hlast : results log.calls = .error last)
    (hretry : last.isRetryable = true) :
    Rounds policy results 0 0 log (.error (.retriesExhausted policy.maxAttempts last))
      log.called where
  budget := Nat.le_refl 0
  fails := by simp
  calls := rfl
  ends := .inr ⟨rfl, last, hlast, hretry, rfl⟩
  waits := ⟨[], by simp [CallLog.called]⟩

theorem Rounds.again (hfails : ¬IsFinal (results log.calls))
    (hcalls : between.calls = log.calls + 1)
    (hdelays : ∃ delays, between.delays = log.delays ++ delays ∧
      delays.length = (if isContended (results log.calls) then 1 else 0) ∧
      ∀ delay ∈ delays, policy.minDelay ≤ delay ∧ delay ≤ policy.maxDelay)
    (h : Rounds policy results left retried between result after) :
    Rounds policy results (left + 1) (retried + 1) log result after where
  budget := Nat.succ_le_succ h.budget
  fails := by
    intro k hk
    cases k with
    | zero => exact hfails
    | succ k =>
      have hlater := h.fails k (Nat.lt_of_succ_lt_succ hk)
      rwa [hcalls, Nat.add_assoc, Nat.add_comm 1] at hlater
  calls := by
    rw [h.calls, hcalls]
    omega
  ends := by
    have hends := h.ends
    rw [hcalls, Nat.add_assoc, Nat.add_comm 1] at hends
    simpa using hends
  waits := by
    obtain ⟨first, hfirst, hlength, hrange⟩ := hdelays
    obtain ⟨later, hlater, hcount, hranges⟩ := h.waits
    refine ⟨first ++ later, ?_, ?_, List.forall_mem_append.mpr ⟨hrange, hranges⟩⟩
    · rw [hlater, hfirst, List.append_assoc]
    · have hshift : ∀ k, between.calls + k = log.calls + (k + 1) := by omega
      rw [List.length_append, hlength, hcount, List.range_succ_eq_map, List.countP_cons,
        List.countP_map, Nat.add_comm]
      simp only [hshift]
      rfl

-- By induction on the calls that are left.
theorem exists_rounds (draw : Nat → Nat) (results : Nat → Except SyncError α)
    (hdelays : policy.minDelay ≤ policy.maxDelay) (left : Nat) (log : CallLog) :
    ∃ retried, Rounds policy results left retried log
      ((attempts policy draw CallLog.sleep (CallLog.call results) left).run log).1
      ((attempts policy draw CallLog.sleep (CallLog.call results) left).run log).2 := by
  induction left generalizing log with
  | zero =>
    refine ⟨0, ?_⟩
    by_cases hfinal : IsFinal (results log.calls)
    · rw [attempts_of_final hfinal]
      exact rounds_of_final hfinal
    · obtain ⟨last, hlast, hretry⟩ := not_isFinal_iff.mp hfinal
      rw [attempts_of_retryable hlast hretry]
      exact rounds_of_exhausted hlast hretry
  | succ left ih =>
    by_cases hfinal : IsFinal (results log.calls)
    · rw [attempts_of_final hfinal]
      exact ⟨0, rounds_of_final hfinal⟩
    · obtain ⟨error, herror, hretry⟩ := not_isFinal_iff.mp hfinal
      rw [attempts_of_retryable herror hretry]
      obtain ⟨retried, hrounds⟩ := ih
        (if isContended (.error error : Except SyncError α) then
          log.called.slept (policy.delay (draw left)) else log.called)
      refine ⟨retried + 1, hrounds.again hfinal ?_ ?_⟩
      · split <;> rfl
      · rw [herror]
        split
        · have hrange := policy.delay_mem hdelays (draw left)
          exact ⟨[policy.delay (draw left)], rfl, rfl, by simpa using hrange⟩
        · exact ⟨[], (List.append_nil _).symm, rfl, by simp⟩

end Rounds

section Counter

variable {m : Type → Type} [Monad m] {α : Type}

theorem toNat_next {attempt : UInt32} (h : attempt.toNat + 1 < UInt32.size) :
    (attempt + 1).toNat = attempt.toNat + 1 := by
  rw [UInt32.toNat_add]
  exact Nat.mod_eq_of_lt h

-- The loop with its attempts counted in 32 bits. It breaks down where the count does not fit.
def countedAttempts (policy : RetryPolicy) (draw : Nat → Nat) (sleep : Nat → m Unit)
    (call : m (Except SyncError α)) (attempt : UInt32) : OptionT m (Except SyncError α) := do
  match ← OptionT.lift call with
  | .ok result => pure (.ok result)
  | .error error =>
    if !error.isRetryable then pure (.error error)
    else if policy.maxAttempts ≤ attempt then pure (.error (.retriesExhausted attempt error))
    else do
      if !error.isCapacity then
        OptionT.lift (sleep (policy.delay (draw (policy.maxAttempts.toNat - attempt.toNat - 1))))
      if h : attempt.toNat + 1 < UInt32.size then
        countedAttempts policy draw sleep call (attempt + 1)
      else failure
termination_by UInt32.size - attempt.toNat
decreasing_by
  rw [toNat_next h]
  omega

variable [LawfulMonad m] {policy : RetryPolicy} {draw : Nat → Nat} {sleep : Nat → m Unit}
  {call : m (Except SyncError α)}

-- As long as there are calls left, the count of those that were made has room for one more.
theorem countedAttempts_eq {left : Nat} {attempt : UInt32}
    (hcount : attempt.toNat + left = policy.maxAttempts.toNat) :
    countedAttempts policy draw sleep call attempt =
      OptionT.lift (attempts policy draw sleep call left) := by
  induction left generalizing attempt with
  | zero =>
    obtain rfl : attempt = policy.maxAttempts := UInt32.toNat_inj.mp hcount
    rw [countedAttempts, attempts, OptionT.lift_bind]
    refine bind_congr fun result => ?_
    cases result with
    | ok a => simp
    | error error => cases hretry : error.isRetryable <;> simp [hretry]
  | succ left ih =>
    have hmore : ¬policy.maxAttempts ≤ attempt := by
      rw [UInt32.le_iff_toNat_le]
      omega
    have hroom : attempt.toNat + 1 < UInt32.size := by
      have := policy.maxAttempts.toNat_lt_size
      omega
    have hnext : countedAttempts policy draw sleep call (attempt + 1) =
        OptionT.lift (attempts policy draw sleep call left) :=
      ih (by rw [toNat_next hroom]; omega)
    have hdraw : policy.maxAttempts.toNat - attempt.toNat - 1 = left := by omega
    rw [countedAttempts, attempts, OptionT.lift_bind]
    refine bind_congr fun result => ?_
    cases result with
    | ok a => simp
    | error error =>
      cases hretry : error.isRetryable <;> cases hcapacity : error.isCapacity <;>
        simp [hretry, hcapacity, hmore, hroom, hnext, hdraw, OptionT.lift_bind]

end Counter

section Budget

variable {α : Type} {policy : RetryPolicy} {results : Nat → Except SyncError α}
  {result : Except SyncError α} {log : CallLog}

theorem RetryPolicy.of_validate (h : policy.validate = .ok ()) :
    0 < policy.maxAttempts.toNat ∧ policy.minDelay ≤ policy.maxDelay := by
  rw [validate] at h
  split at h
  · cases h
  · rename_i hattempts
    split at h
    · cases h
    · rename_i hdelays
      exact ⟨Nat.pos_of_ne_zero fun hzero => hattempts (UInt32.toNat_inj.mp hzero),
        Nat.le_of_not_lt hdelays⟩

theorem RetryPolicy.kind_of_validate {error : SyncError} (h : policy.validate = .error error) :
    error.kind = .validation := by
  rw [validate] at h
  split at h
  · cases h
    rfl
  · split at h
    · cases h
      rfl
    · cases h

-- What a policy allows, said of the results alone: to call until the first final one, unless
-- that comes too late, and to wait after each contended one but the last.
structure RetryPolicy.Spends (policy : RetryPolicy) (results : Nat → Except SyncError α)
    (result : Except SyncError α) (log : CallLog) : Prop where
  settled : ∀ k < policy.maxAttempts.toNat, IsLeast {k | IsFinal (results k)} k →
    log.calls = k + 1 ∧ result = results k
  exhausted : (∀ k, IsLeast {k | IsFinal (results k)} k → policy.maxAttempts.toNat ≤ k) →
    log.calls = policy.maxAttempts.toNat ∧ ∃ last,
      results (policy.maxAttempts.toNat - 1) = .error last ∧
      result = .error (.retriesExhausted policy.maxAttempts last)
  waits : log.delays.length =
    (List.range (log.calls - 1)).countP fun k => isContended (results k)
  delays : ∀ delay ∈ log.delays, policy.minDelay ≤ delay ∧ delay ≤ policy.maxDelay

theorem Rounds.spends {left retried : Nat} (hleft : policy.maxAttempts.toNat = left + 1)
    (h : Rounds policy results left retried {} result log) : policy.Spends results result log := by
  obtain ⟨hbudget, hfails, hcalls, hends, delays, hdelays, hlength, hrange⟩ := h
  simp only [Nat.zero_add, List.nil_append] at hfails hcalls hends hdelays hlength
  refine ⟨fun k hk hleast => ?_, fun hlate => ?_, ?_, hdelays ▸ hrange⟩
  · have hle : retried ≤ k := Nat.le_of_not_lt fun hlt => hfails k hlt hleast.1
    rcases hends with ⟨hfinal, hresult⟩ | ⟨rfl, last, hlast, hretry, _⟩
    · obtain rfl : k = retried := Nat.le_antisymm (hleast.2 hfinal) hle
      exact ⟨hcalls, hresult⟩
    · obtain rfl : k = retried := by omega
      exact absurd hleast.1 (not_isFinal_iff.mpr ⟨last, hlast, hretry⟩)
  · rcases hends with ⟨hfinal, _⟩ | ⟨rfl, last, hlast, _, hresult⟩
    · have hleast : IsLeast {k | IsFinal (results k)} retried :=
        ⟨hfinal, fun k hk => Nat.le_of_not_lt fun hlt => hfails k hlt hk⟩
      have := hlate retried hleast
      omega
    · refine ⟨hcalls.trans hleft.symm, last, ?_, hresult⟩
      rwa [hleft]
  · rw [hdelays, hlength, hcalls, Nat.add_sub_cancel]

-- A policy that cannot be followed is refused before anything is done. Any other is followed
-- to the letter, and the number of attempts that are made fits its 32 bits throughout.
theorem retry_spends_budget (policy : RetryPolicy) (draw : Nat → Nat)
    (results : Nat → Except SyncError α) :
    let run := (retry policy draw CallLog.sleep (CallLog.call results)).run {}
    match policy.validate with
    | .error error => error.kind = .validation ∧ run = (.error error, {})
    | .ok () => policy.Spends results run.1 run.2 ∧
      (countedAttempts policy draw CallLog.sleep (CallLog.call results) 1).run.run {} =
        (some run.1, run.2) := by
  intro run
  cases hvalid : policy.validate with
  | error error =>
    refine ⟨RetryPolicy.kind_of_validate hvalid, ?_⟩
    simp only [run, retry, hvalid]
    rfl
  | ok =>
    obtain ⟨hpositive, hdelays⟩ := RetryPolicy.of_validate hvalid
    obtain ⟨left, hleft⟩ := Nat.exists_eq_add_one.mpr hpositive
    have hrun : run =
        (attempts policy draw CallLog.sleep (CallLog.call results) left).run {} := by
      simp only [run, retry, hvalid, hleft, Nat.add_sub_cancel]
    rw [hrun]
    constructor
    · obtain ⟨retried, hrounds⟩ := exists_rounds draw results hdelays left {}
      exact hrounds.spends hleft
    · have hcount : (1 : UInt32).toNat + left = policy.maxAttempts.toNat := by
        rw [UInt32.toNat_one, hleft, Nat.add_comm]
      rw [countedAttempts_eq hcount]
      rfl

-- A full map is tried again at once, a lost race after a while, and the last attempt ends it.
example :
    let full : SyncError := .store (.capacityExhausted "put" 4096)
    let lost : SyncError := .store (.notFound "nodes")
    let results : Nat → Except SyncError Unit
      | 0 => .error full
      | _ => .error lost
    (retry ⟨3, 5, 9⟩ id CallLog.sleep (CallLog.call results)).run {} =
      (.error (.retriesExhausted 3 lost), { calls := 3, delays := [5] }) := by cbv

end Budget

end LightningRecords

import LightningRecords.Procedure.Basic

namespace LightningRecords

-- How often a call is made, and how many nanoseconds lie between calls.
structure RetryPolicy where
  maxAttempts : UInt32
  minDelay : Nat
  maxDelay : Nat
deriving DecidableEq, Repr

namespace RetryPolicy

def standard : RetryPolicy := ⟨25, 10 * Duration.millisecond, 250 * Duration.millisecond⟩

instance : Inhabited RetryPolicy := ⟨standard⟩

def never : RetryPolicy := { standard with maxAttempts := 1 }

def validate (policy : RetryPolicy) : Except SyncError Unit :=
  if policy.maxAttempts = 0 then .error (.invalid "retry policy" .noAttempts)
  else if policy.maxDelay < policy.minDelay then
    .error (.invalid "retry policy" (.delays policy.minDelay policy.maxDelay))
  else .ok ()

-- A delay between the least and the most, both included, picked by a number
-- drawn at random.
def delay (policy : RetryPolicy) (draw : Nat) : Nat :=
  if policy.maxDelay ≤ policy.minDelay then policy.minDelay
  else policy.minDelay + draw % (policy.maxDelay - policy.minDelay + 1)

theorem delay_mem (policy : RetryPolicy) (h : policy.minDelay ≤ policy.maxDelay) (draw : Nat) :
    policy.minDelay ≤ policy.delay draw ∧ policy.delay draw ≤ policy.maxDelay := by
  simp only [delay]
  split
  · omega
  · have := Nat.mod_lt draw (show 0 < policy.maxDelay - policy.minDelay + 1 by omega)
    omega

end RetryPolicy

section Retry

variable {m : Type → Type} [Monad m] {α : Type}

-- Makes a call, and others as long as it may go better and `left` allows it. A
-- full map was already grown and is tried again at once. Each other retry waits.
def attempts (policy : RetryPolicy) (draw : Nat → Nat) (sleep : Nat → m Unit)
    (call : m (Except SyncError α)) (left : Nat) : m (Except SyncError α) := do
  match ← call with
  | .ok result => pure (.ok result)
  | .error error =>
    if !error.isRetryable then pure (.error error)
    else
      match left with
      | 0 => pure (.error (.retriesExhausted policy.maxAttempts error))
      | left + 1 =>
        if error.isCapacity then attempts policy draw sleep call left
        else do
          sleep (policy.delay (draw left))
          attempts policy draw sleep call left

-- Makes a call as often as the policy says. Each wait is drawn anew.
def retry (policy : RetryPolicy) (draw : Nat → Nat) (sleep : Nat → m Unit)
    (call : m (Except SyncError α)) : m (Except SyncError α) :=
  match policy.validate with
  | .error error => pure (.error error)
  | .ok () => attempts policy draw sleep call (policy.maxAttempts.toNat - 1)

end Retry

namespace Procedure

-- A procedure that is begun anew after every lost race.
def retried {α : Type} (policy : RetryPolicy) (draw : Nat → Nat) (procedure : Procedure α) :
    Procedure α :=
  ExceptT.mk (retry policy draw (fun delay => .request (.pause delay) .done) procedure.run)

end Procedure

end LightningRecords

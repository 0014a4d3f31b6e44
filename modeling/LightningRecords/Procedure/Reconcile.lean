import LightningRecords.Difference
import LightningRecords.Procedure.Basic
import LightningRecords.Schema

namespace LightningRecords

-- What became of a record.
inductive Outcome where
  | created (record : Record)
  | updated (previous updates stored : Record)
  | unchanged
deriving DecidableEq

namespace Outcome

def isCreated : Outcome → Bool
  | .created _ => true
  | _ => false

def isUpdated : Outcome → Bool
  | .updated .. => true
  | _ => false

def isUnchanged : Outcome → Bool
  | .unchanged => true
  | _ => false

def label : Outcome → String
  | .created _ => "created"
  | .updated .. => "updated"
  | .unchanged => "unchanged"

end Outcome

namespace Procedure

-- What an update expects of a record that was loaded: its revision, still.
def expectRevision (table : String) (stored : Record) : Except SyncError Record :=
  match stored.revision? with
  | some revision => .ok (OrderedMap.insert ∅ Record.revisionAttribute (.int revision))
  | none => .error (.store (.corrupted table .noRevision))

-- Stores a first record. If another got there first, an immutable record is as
-- good as this one.
def create (schema : Schema) (key : Key) (fresh : Record) : Procedure Outcome := do
  let record : Record := fresh.insert Record.revisionAttribute (.int Schema.baseRevision)
  match ← request (.put schema.table key record [schema.unique]) with
  | .ok () => pure (.created (record.without Record.revisionAttribute))
  | .error error =>
    if schema.isImmutable && error.isFreshViolation then pure .unchanged
    else throw (.store error)

-- Brings the mutable attributes of a stored record in line with a fresh one.
def revise (schema : Schema) (key : Key) (stored fresh : Record) : Procedure Outcome := do
  match Difference.between (stored.project schema.mutable) (fresh.project schema.mutable) with
  | none => pure .unchanged
  | some difference =>
    let expected ← ofExcept (expectRevision schema.table stored)
    let _ ← update schema.table key difference.changes expected
    pure (.updated difference.previous difference.updated stored)

-- Creates what is not stored yet, revises what is, and leaves alone what was not
-- reported.
def reconcile (schema : Schema) (key : Key) (stored fresh : Option Record) : Procedure Outcome :=
  match stored, fresh with
  | none, some fresh => create schema key fresh
  | some stored, some fresh =>
    if schema.isImmutable then pure .unchanged else revise schema key stored fresh
  | _, none => pure .unchanged

end Procedure

end LightningRecords

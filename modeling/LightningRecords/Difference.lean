import LightningRecords.Changes

namespace LightningRecords

-- How a fresh record differs from the stored one: the changes that lead from one
-- to the other, and both records cut down to what differs.
structure Difference where
  changes : Changes
  previous : Record
  updated : Record
deriving DecidableEq

namespace Difference

-- Lists are compared as sets, and a missing list is an empty one.
def same : Option Value → Option Value → Bool
  | some before, some after => before.setEq after
  | none, none => true
  | some (.list []), none | none, some (.list []) => true
  | _, _ => false

def differs (stored fresh : Record) (name : String) : Bool :=
  !same (stored.get? name) (fresh.get? name)

-- Attributes that only the stored record has are removed, the others set.
def changesOf (previous updated : Record) : Changes :=
  let removals := previous.keys.foldl (fun changes name => changes.insert name Change.remove) ∅
  updated.toList.foldl (fun changes (name, value) => changes.insert name (Change.set value)) removals

def between (stored fresh : Record) : Option Difference :=
  let previous := stored.filter fun name _ => differs stored fresh name
  let updated := fresh.filter fun name _ => differs stored fresh name
  if previous.isEmpty && updated.isEmpty then none
  else some { changes := (changesOf previous updated).bumpRevision, previous, updated }

end Difference

end LightningRecords

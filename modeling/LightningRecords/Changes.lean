import LightningRecords.Record

namespace LightningRecords

-- What an update does to one attribute.
inductive Change where
  | set (value : Value)
  | add (value : Value)
  | remove
deriving DecidableEq, Repr

-- At most one change for each attribute, in attribute order.
abbrev Changes := OrderedMap Text.compare Change

-- Why a value cannot be added to an attribute.
inductive ChangeError where
  | overflow (name : String) (added : Int64)
  | unlike (name added current : String)
deriving DecidableEq, Repr

def ChangeError.message : ChangeError → String
  | .overflow name added => s!"adding {added.toInt} to `{name}` overflows"
  | .unlike name added current => s!"cannot add {added} to {current} attribute `{name}`"

-- The sum, if it is a 64-bit number.
def checkedAdd? (a b : Int64) : Option Int64 :=
  let sum := a.toInt + b.toInt
  if Int64.minValue.toInt ≤ sum ∧ sum ≤ Int64.maxValue.toInt then some (Int64.ofInt sum) else none

-- Numbers are summed, lists take on the items of a list or any other value as
-- one more item.
def Value.add (name : String) : Value → Value → Except ChangeError Value
  | .list items, .list more => .ok (.list (items ++ more))
  | .list items, value => .ok (.list (items ++ [value]))
  | .int a, .int b =>
    match checkedAdd? a b with
    | some sum => .ok (.int sum)
    | none => .error (.overflow name b)
  | current, value => .error (.unlike name value.kind current.kind)

-- What an attribute becomes under a change.
def Change.outcome (name : String) (current : Option Value) :
    Change → Except ChangeError (Option Value)
  | .set value => .ok (some value)
  | .remove => .ok none
  | .add value =>
    match current with
    | none => .ok (some value)
    | some current => (current.add name value).map some

def Change.applyTo (name : String) (change : Change) (record : Record) :
    Except ChangeError Record := do
  match ← change.outcome name (record.get? name) with
  | some value => .ok (record.insert name value)
  | none => .ok (record.erase name)

namespace Changes

def bumpRevision (changes : Changes) : Changes :=
  changes.insert Record.revisionAttribute (.add (.int 1))

-- Applies every change in attribute order. The first that does not fit its
-- attribute stops all of them.
def apply (changes : Changes) (record : Record) : Except ChangeError Record :=
  changes.toList.foldlM (fun record (name, change) => change.applyTo name record) record

end Changes

end LightningRecords

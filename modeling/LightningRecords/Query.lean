import LightningRecords.Record

namespace LightningRecords

-- What is asked of one attribute.
inductive Predicate where
  | equals (value : Value)
  | greater (value : Value)
  | startsWith (start : String)
deriving DecidableEq, Repr

-- An attribute that is missing satisfies nothing, and values of different kinds
-- are never greater than one another, nor are flags and lists.
def Predicate.holds : Predicate → Option Value → Bool
  | _, none => false
  | .equals expected, some value => decide (value = expected)
  | .greater (.int bound), some (.int n) => decide (bound < n)
  | .greater (.text bound), some (.text text) => Text.compare bound text == .lt
  | .greater (.bytes bound), some (.bytes bytes) => Bytes.compare bound bytes == .lt
  | .greater _, some _ => false
  | .startsWith start, some (.text text) => (Text.bytes start).isPrefixOf (Text.bytes text)
  | .startsWith _, some _ => false

-- A stretch of keys, how many of them are read, and what is asked of their
-- records.
structure Query where
  keyStart : Option Bytes := none
  upperBound : Option Bytes := none
  limit : Option Nat := none
  predicates : List (String × Predicate) := []
deriving DecidableEq, Repr

-- One record that a query finds.
structure Row where
  key : Bytes
  record : Record
deriving DecidableEq

namespace Query

-- Keys with the wanted start stand together, and the scan begins at the first
-- of them: it is over at the first key without it, or above the upper bound.
def isPastEnd (query : Query) (key : Bytes) : Bool :=
  (match query.keyStart with
    | some start => !start.isPrefixOf key
    | none => false) ||
  (match query.upperBound with
    | some bound => Bytes.compare bound key == .lt
    | none => false)

def accepts (query : Query) (record : Record) : Bool :=
  query.predicates.all fun (name, predicate) => predicate.holds (record.get? name)

end Query

end LightningRecords

import LightningRecords.Value

namespace LightningRecords.Value

-- Place of a kind in the order of all values.
def rank : Value → Nat
  | .int _ => 0
  | .text _ => 1
  | .bytes _ => 2
  | .bool _ => 3
  | .list _ => 4

mutual

-- Values are ordered by kind, then by content: numbers by size, texts and bytes
-- bytewise, false before true, lists by their first difference.
def compare : Value → Value → Ordering
  | .int a, .int b => Ord.compare a b
  | .text a, .text b => Text.compare a b
  | .bytes a, .bytes b => Bytes.compare a b
  | .bool a, .bool b => Ord.compare a b
  | .list a, .list b => compareAll a b
  | a, b => Ord.compare a.rank b.rank

def compareAll : List Value → List Value → Ordering
  | [], [] => .eq
  | [], _ :: _ => .lt
  | _ :: _, [] => .gt
  | a :: as, b :: bs =>
    match a.compare b with
    | .eq => compareAll as bs
    | other => other

end

-- Places a value in an ascending list unless it is there already.
def insertDistinct (v : Value) : List Value → List Value
  | [] => [v]
  | w :: rest =>
    match v.compare w with
    | .lt => v :: w :: rest
    | .eq => w :: rest
    | .gt => w :: insertDistinct v rest

-- The members of a list in ascending order, each once.
def members (items : List Value) : List Value := items.foldr insertDistinct []

-- Lists are the same set when they have the same members. All other values have
-- to be equal.
def setEq : Value → Value → Bool
  | .list a, .list b => decide (members a = members b)
  | a, b => decide (a = b)

end LightningRecords.Value

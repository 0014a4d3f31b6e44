import LightningRecords.Text.Utf8

namespace LightningRecords

-- What an attribute holds.
inductive Value where
  | int (n : Int64)
  | text (s : String)
  | bytes (b : Bytes)
  | bool (flag : Bool)
  | list (items : List Value)
deriving Inhabited, Repr

namespace Value

mutual

def decideEq : (a b : Value) → Decidable (a = b)
  | .int a, .int b => if h : a = b then .isTrue (h ▸ rfl) else .isFalse (by simp [h])
  | .text a, .text b => if h : a = b then .isTrue (h ▸ rfl) else .isFalse (by simp [h])
  | .bytes a, .bytes b => if h : a = b then .isTrue (h ▸ rfl) else .isFalse (by simp [h])
  | .bool a, .bool b => if h : a = b then .isTrue (h ▸ rfl) else .isFalse (by simp [h])
  | .list a, .list b =>
    match decideEqAll a b with
    | .isTrue h => .isTrue (h ▸ rfl)
    | .isFalse h => .isFalse (by simp [h])
  | .int _, .text _ | .int _, .bytes _ | .int _, .bool _ | .int _, .list _
  | .text _, .int _ | .text _, .bytes _ | .text _, .bool _ | .text _, .list _
  | .bytes _, .int _ | .bytes _, .text _ | .bytes _, .bool _ | .bytes _, .list _
  | .bool _, .int _ | .bool _, .text _ | .bool _, .bytes _ | .bool _, .list _
  | .list _, .int _ | .list _, .text _ | .list _, .bytes _ | .list _, .bool _ =>
    .isFalse (by simp)

def decideEqAll : (a b : List Value) → Decidable (a = b)
  | [], [] => .isTrue rfl
  | [], _ :: _ => .isFalse (by simp)
  | _ :: _, [] => .isFalse (by simp)
  | a :: as, b :: bs =>
    match decideEq a b with
    | .isFalse h => .isFalse (by simp [h])
    | .isTrue h =>
      match decideEqAll as bs with
      | .isTrue hs => .isTrue (by simp [h, hs])
      | .isFalse hs => .isFalse (by simp [hs])

end

instance : DecidableEq Value := decideEq

def kind : Value → String
  | .int _ => "int"
  | .text _ => "text"
  | .bytes _ => "bytes"
  | .bool _ => "bool"
  | .list _ => "list"

def asInt? : Value → Option Int64
  | .int n => some n
  | _ => none

def asText? : Value → Option String
  | .text s => some s
  | _ => none

def asBytes? : Value → Option Bytes
  | .bytes b => some b
  | _ => none

def asBool? : Value → Option Bool
  | .bool flag => some flag
  | _ => none

def asList? : Value → Option (List Value)
  | .list items => some items
  | _ => none

def ofNat (n : Nat) : Value := .int (Int64.ofNat n)

def ofUInt32 (n : UInt32) : Value := ofNat n.toNat

mutual

-- How deep lists are nested: nothing for a value that is no list, one more than
-- the deepest item for a list.
def depth : Value → Nat
  | .list items => 1 + depthAll items
  | _ => 0

def depthAll : List Value → Nat
  | [] => 0
  | v :: rest => max v.depth (depthAll rest)

end

end Value

end LightningRecords

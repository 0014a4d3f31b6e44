import LightningRecords.Cbor.Parser
import LightningRecords.Record

namespace LightningRecords

open Cbor (Item)

-- Why an item is no value.
inductive ValueError where
  | outOfRange (n : Int)
  | unsupported (kind : Cbor.Kind)
deriving DecidableEq, Repr

def ValueError.message : ValueError → String
  | .outOfRange n => s!"integer {n} out of range"
  | .unsupported kind => s!"unsupported value kind {kind.name}"

namespace Value

mutual

def toItem : Value → Item
  | .int n => .integer n.toInt
  | .text s => .text s
  | .bytes b => .bytes b
  | .bool flag => .bool flag
  | .list items => .array (toItems items)

def toItems : List Value → List Item
  | [] => []
  | v :: rest => v.toItem :: toItems rest

end

mutual

-- The value that an item stands for. Within a list the first item that stands
-- for none is reported.
def ofItem : Item → Except ValueError Value
  | .integer n =>
    if Int64.minValue.toInt ≤ n ∧ n ≤ Int64.maxValue.toInt then .ok (.int (Int64.ofInt n))
    else .error (.outOfRange n)
  | .text s => .ok (.text s)
  | .bytes b => .ok (.bytes b)
  | .bool flag => .ok (.bool flag)
  | .array items => (ofItems items).map .list
  | .null => .error (.unsupported .null)
  | .float _ => .error (.unsupported .float)
  | .map _ => .error (.unsupported .map)

def ofItems : List Item → Except ValueError (List Value)
  | [] => .ok []
  | item :: rest => do
    let value ← ofItem item
    let values ← ofItems rest
    .ok (value :: values)

end

end Value

-- Why bytes are no record.
inductive DecodeError where
  | malformed (error : Cbor.ParseError)
  | notMap (found : Cbor.Kind)
  | nameNotText (found : Cbor.Kind)
  | badValue (name : String) (error : ValueError)
deriving DecidableEq, Repr

def DecodeError.cause : DecodeError → String
  | .malformed error => error.message
  | .notMap found => s!"expected a map at the top level, found {found.name}"
  | .nameNotText found => s!"attribute names must be text, found {found.name}"
  | .badValue name error => s!"`{name}`: {error.message}"

def DecodeError.message (error : DecodeError) : String :=
  "cannot decode record: " ++ error.cause

namespace Record

-- Named items in the order in which a map is written: shorter names first.
abbrev Fields := OrderedMap Text.compareByLength Item

def fields (record : Record) : Fields :=
  OrderedMap.ofList (record.toList.map fun (name, value) => (name, value.toItem))

def toItem (record : Record) : Item :=
  .map (record.fields.toList.map fun (name, item) => (.text name, item))

def encode (record : Record) : Bytes := record.toItem.encode

-- The entries of a map that have a name. The last of several with one name stays.
def namedEntries (entries : List (Item × Item)) : Fields :=
  OrderedMap.ofList (entries.filterMap fun
    | (.text name, item) => some (name, item)
    | _ => none)

-- The first of the given kinds that some key is of.
def strangeKey? (kinds : List Cbor.Kind) (entries : List (Item × Item)) : Option Cbor.Kind :=
  kinds.find? fun kind => entries.any fun (key, _) => key.kind = kind

-- A null stands for an attribute that is not there.
def insertField (record : Record) : String × Item → Except DecodeError Record
  | (_, .null) => .ok record
  | (name, item) =>
    match Value.ofItem item with
    | .ok value => .ok (record.insert name value)
    | .error error => .error (.badValue name error)

-- Keys that are no names are found before the names if they are integers or byte
-- strings, and behind them otherwise.
def ofEntries (entries : List (Item × Item)) : Except DecodeError Record :=
  match strangeKey? [.integer, .bytes] entries with
  | some kind => .error (.nameNotText kind)
  | none => do
    let record ← (namedEntries entries).toList.foldlM insertField ∅
    match strangeKey? [.array, .map, .bool, .null, .float] entries with
    | some kind => .error (.nameNotText kind)
    | none => .ok record

def ofItem : Item → Except DecodeError Record
  | .map entries => ofEntries entries
  | other => .error (.notMap other.kind)

def decode (bytes : Bytes) : Except DecodeError Record :=
  match Cbor.parse bytes with
  | .ok root => ofItem root
  | .error error => .error (.malformed error)

end Record

end LightningRecords

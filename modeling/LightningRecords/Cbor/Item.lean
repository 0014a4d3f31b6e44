import LightningRecords.Text.Utf8

namespace LightningRecords.Cbor

-- A CBOR data item. Tags are not kept, `undefined` is kept as null, and a
-- float is kept as its bits.
inductive Item where
  | null
  | bool (flag : Bool)
  | integer (n : Int)
  | float (bits : Bytes)
  | bytes (b : Bytes)
  | text (s : String)
  | array (items : List Item)
  | map (entries : List (Item × Item))
deriving Inhabited, Repr

-- What an item is, without its content.
inductive Kind where
  | null | bool | integer | float | bytes | text | array | map
deriving DecidableEq, Repr

def Kind.name : Kind → String
  | .null => "null"
  | .bool => "bool"
  | .integer => "integer"
  | .float => "float"
  | .bytes => "bytes"
  | .text => "text"
  | .array => "array"
  | .map => "map"

def Item.kind : Item → Kind
  | .null => .null
  | .bool _ => .bool
  | .integer _ => .integer
  | .float _ => .float
  | .bytes _ => .bytes
  | .text _ => .text
  | .array _ => .array
  | .map _ => .map

-- The head of an item in front of what follows: the major type and a number, in
-- the fewest bytes.
def writeHead (major n : Nat) (tail : Bytes) : Bytes :=
  let initial (info : Nat) : UInt8 := UInt8.ofNat (major * 32 + info)
  if n < 24 then initial n :: tail
  else if n < 0x100 then initial 24 :: (Bytes.bigEndian 1 n ++ tail)
  else if n < 0x10000 then initial 25 :: (Bytes.bigEndian 2 n ++ tail)
  else if n < 0x100000000 then initial 26 :: (Bytes.bigEndian 4 n ++ tail)
  else initial 27 :: (Bytes.bigEndian 8 n ++ tail)

-- The initial byte of a float of the given width.
def floatByte (width : Nat) : UInt8 :=
  if width = 2 then 0xF9 else if width = 4 then 0xFA else 0xFB

mutual

-- The bytes of an item in front of what follows. Lengths are always stated and
-- entries keep their order.
def Item.write (tail : Bytes) : Item → Bytes
  | .null => 0xF6 :: tail
  | .bool false => 0xF4 :: tail
  | .bool true => 0xF5 :: tail
  | .integer n => if n < 0 then writeHead 1 (-1 - n).toNat tail else writeHead 0 n.toNat tail
  | .float bits => floatByte bits.length :: (bits ++ tail)
  | .bytes b => writeHead 2 b.length (b ++ tail)
  | .text s => writeHead 3 s.utf8ByteSize (Text.bytes s ++ tail)
  | .array items => writeHead 4 items.length (writeItems tail items)
  | .map entries => writeHead 5 entries.length (writeEntries tail entries)

def writeItems (tail : Bytes) : List Item → Bytes
  | [] => tail
  | item :: rest => item.write (writeItems tail rest)

def writeEntries (tail : Bytes) : List (Item × Item) → Bytes
  | [] => tail
  | (key, value) :: rest => key.write (value.write (writeEntries tail rest))

end

def Item.encode (item : Item) : Bytes := item.write []

end LightningRecords.Cbor

import LightningRecords.Cbor.Item

namespace LightningRecords.Cbor

-- What is wrong with bytes that are no item.
inductive Fault where
  | endInValue
  | endInArray
  | endInMap
  | unassigned
  | unexpectedCode
  | invalidUtf8
  | lengthOutOfRange
  | tooDeep
  | trailing
deriving DecidableEq, Repr

def Fault.message : Fault → String
  | .endInValue => "EOF while parsing a value"
  | .endInArray => "EOF while parsing an array"
  | .endInMap => "EOF while parsing a map"
  | .unassigned => "unassigned type"
  | .unexpectedCode => "unexpected code"
  | .invalidUtf8 => "invalid UTF-8"
  | .lengthOutOfRange => "length out of range"
  | .tooDeep => "recursion limit exceeded"
  | .trailing => "trailing data"

structure ParseError where
  fault : Fault
  offset : Nat
deriving DecidableEq, Repr

-- Offset zero is not told.
def ParseError.message (error : ParseError) : String :=
  if error.offset = 0 then error.fault.message
  else s!"{error.fault.message} at offset {error.offset}"

-- The bytes still to be read and how many have been.
structure Cursor where
  rest : Bytes
  offset : Nat
deriving DecidableEq, Repr

namespace Cursor

def fail {α : Type} (c : Cursor) (fault : Fault) : Except ParseError α := .error ⟨fault, c.offset⟩

-- The input ends where more of it is needed.
def failAtEnd {α : Type} (c : Cursor) (fault : Fault) : Except ParseError α :=
  .error ⟨fault, c.offset + c.rest.length⟩

def byte (c : Cursor) : Except ParseError (UInt8 × Cursor) :=
  match c.rest with
  | [] => c.fail .endInValue
  | b :: rest => .ok (b, ⟨rest, c.offset + 1⟩)

def take (c : Cursor) (count : Nat) : Except ParseError (Bytes × Cursor) :=
  match c.rest.split? count with
  | some (front, rest) => .ok (front, ⟨rest, c.offset + count⟩)
  | none => c.failAtEnd .endInValue

end Cursor

-- Reads one thing at the cursor.
abbrev Step (α : Type) := Cursor → Except ParseError (α × Cursor)

-- The number in a head whose initial byte has the given low five bits.
def argument (info : Nat) : Step Nat := fun c =>
  let wide (count : Nat) : Except ParseError (Nat × Cursor) := do
    let (digits, c) ← c.take count
    .ok (digits.toNat, c)
  if info < 24 then .ok (info, c)
  else if info = 24 then wide 1
  else if info = 25 then wide 2
  else if info = 26 then wide 4
  else if info = 27 then wide 8
  else c.fail .unassigned

-- The parts of a string of unstated length, up to the break. Each part is a
-- string of the same type with a stated length.
def chunks (major : Nat) : Nat → Step Bytes
  | 0, c => c.failAtEnd .endInValue
  | loops + 1, c => do
    let (b, c) ← c.byte
    if b = 0xFF then .ok ([], c)
    else if b.toNat / 32 = major ∧ b.toNat % 32 < 28 then
      let (count, c) ← argument (b.toNat % 32) c
      let (chunk, c) ← c.take count
      let (more, c) ← chunks major loops c
      .ok (chunk ++ more, c)
    else c.fail .unexpectedCode

-- Exactly so many items.
def items (one : Step Item) : Nat → Step (List Item)
  | 0, c => .ok ([], c)
  | count + 1, c => do
    let (item, c) ← one c
    let (more, c) ← items one count c
    .ok (item :: more, c)

-- Items up to the break.
def itemsToBreak (one : Step Item) : Nat → Step (List Item)
  | 0, c => c.failAtEnd .endInArray
  | loops + 1, c =>
    match c.rest with
    | [] => c.fail .endInArray
    | 0xFF :: rest => .ok ([], ⟨rest, c.offset + 1⟩)
    | _ => do
      let (item, c) ← one c
      let (more, c) ← itemsToBreak one loops c
      .ok (item :: more, c)

def entries (one : Step Item) : Nat → Step (List (Item × Item))
  | 0, c => .ok ([], c)
  | count + 1, c => do
    let (key, c) ← one c
    let (value, c) ← one c
    let (more, c) ← entries one count c
    .ok ((key, value) :: more, c)

def entriesToBreak (one : Step Item) : Nat → Step (List (Item × Item))
  | 0, c => c.failAtEnd .endInMap
  | loops + 1, c =>
    match c.rest with
    | [] => c.fail .endInMap
    | 0xFF :: rest => .ok ([], ⟨rest, c.offset + 1⟩)
    | _ => do
      let (key, c) ← one c
      let (value, c) ← one c
      let (more, c) ← entriesToBreak one loops c
      .ok ((key, value) :: more, c)

def byteString (loops info : Nat) : Step Item := fun c => do
  if info = 31 then
    let (content, c) ← chunks 2 loops c
    .ok (.bytes content, c)
  else
    let (count, c) ← argument info c
    let (content, c) ← c.take count
    .ok (.bytes content, c)

-- The text that was read just before the cursor. A text that is not UTF-8 fails
-- where its valid beginning ends.
def textItem (content : Bytes) : Step Item := fun c =>
  match Text.ofBytes? content with
  | some s => .ok (.text s, c)
  | none => .error ⟨.invalidUtf8, c.offset - (content.length - Text.validLength content)⟩

-- A text may not be announced to end beyond the last 64-bit offset.
def textString (loops info : Nat) : Step Item := fun c => do
  if info = 31 then
    let (content, c) ← chunks 3 loops c
    textItem content c
  else
    let (count, c) ← argument info c
    if 0xFFFFFFFFFFFFFFFF < c.offset + count then c.fail .lengthOutOfRange
    else
      let (content, c) ← c.take count
      textItem content c

-- Arrays, maps and tags are entered only as long as the level allows it.
def enter (inner : Option (Step Item)) (c : Cursor) : Except ParseError (Step Item) :=
  match inner with
  | some one => .ok one
  | none => c.fail .tooDeep

def arrayItem (loops : Nat) (inner : Option (Step Item)) (info : Nat) : Step Item := fun c => do
  if info = 31 then
    let one ← enter inner c
    let (content, c) ← itemsToBreak one loops c
    .ok (.array content, c)
  else
    let (count, c) ← argument info c
    let one ← enter inner c
    let (content, c) ← items one count c
    .ok (.array content, c)

def mapItem (loops : Nat) (inner : Option (Step Item)) (info : Nat) : Step Item := fun c => do
  if info = 31 then
    let one ← enter inner c
    let (content, c) ← entriesToBreak one loops c
    .ok (.map content, c)
  else
    let (count, c) ← argument info c
    let one ← enter inner c
    let (content, c) ← entries one count c
    .ok (.map content, c)

-- The item under a tag.
def taggedItem (inner : Option (Step Item)) (info : Nat) : Step Item := fun c => do
  let (_, c) ← argument info c
  let one ← enter inner c
  one c

def floatItem (width : Nat) : Step Item := fun c => do
  let (bits, c) ← c.take width
  .ok (.float bits, c)

def simpleItem (info : Nat) : Step Item := fun c =>
  if info = 20 then .ok (.bool false, c)
  else if info = 21 then .ok (.bool true, c)
  else if info = 22 then .ok (.null, c)
  else if info = 23 then .ok (.null, c)
  else if info = 25 then floatItem 2 c
  else if info = 26 then floatItem 4 c
  else if info = 27 then floatItem 8 c
  else if info = 31 then c.fail .unexpectedCode
  else c.fail .unassigned

-- One item, whose own items are read by `inner`.
def itemWith (loops : Nat) (inner : Option (Step Item)) : Step Item := fun c => do
  let (b, c) ← c.byte
  let info := b.toNat % 32
  match b.toNat / 32 with
  | 0 =>
    let (n, c) ← argument info c
    .ok (.integer n, c)
  | 1 =>
    let (n, c) ← argument info c
    .ok (.integer (-1 - n), c)
  | 2 => byteString loops info c
  | 3 => textString loops info c
  | 4 => arrayItem loops inner info c
  | 5 => mapItem loops inner info c
  | 6 => taggedItem inner info c
  | _ => simpleItem info c

-- One item with at most `room` levels of arrays, maps and tags. No loop reads
-- more than `loops` parts.
def item (loops : Nat) : Nat → Step Item
  | 0 => itemWith loops none
  | room + 1 => itemWith loops (some (item loops room))

-- Arrays, maps and tags may be nested this deep.
def maxDepth : Nat := 127

-- The one item that the bytes are.
def parse (bytes : Bytes) : Except ParseError Item := do
  let (root, c) ← item (bytes.length + 1) maxDepth ⟨bytes, 0⟩
  match c.rest with
  | [] => .ok root
  | _ => .error ⟨.trailing, c.offset + 1⟩

end LightningRecords.Cbor

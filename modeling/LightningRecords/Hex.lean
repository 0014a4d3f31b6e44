import LightningRecords.Text.Utf8
import LightningRecords.Text.Quoted

namespace LightningRecords

-- Why a text is not a row of two-digit hexadecimal bytes.
inductive HexError where
  | oddLength
  | invalidDigit (byte : UInt8) (position : Nat)
deriving DecidableEq, Repr

def HexError.message : HexError → String
  | .oddLength => "Odd number of digits"
  | .invalidDigit byte position =>
    "Invalid character " ++ Text.quoted (Char.ofNat byte.toNat) ++ " at position " ++ toString position

namespace Hex

def digitChar (n : UInt8) : Char := Text.hexDigit n.toNat

-- Two lower case digits for each byte.
def encode (bytes : Bytes) : String :=
  String.ofList (bytes.flatMap fun b => [digitChar (b / 16), digitChar (b % 16)])

-- Digits of both cases are read.
def digit? (b : UInt8) : Option UInt8 :=
  if 48 ≤ b && b ≤ 57 then some (b - 48)
  else if 97 ≤ b && b ≤ 102 then some (b - 87)
  else if 65 ≤ b && b ≤ 70 then some (b - 55)
  else none

-- Reads digit pairs from byte position `position` on, behind the bytes already
-- read, which are kept last first.
def decodeOnto (read : Bytes) (position : Nat) : Bytes → Except HexError Bytes
  | [] => .ok read.reverse
  | [_] => .error .oddLength
  | high :: low :: rest =>
    match digit? high, digit? low with
    | some h, some l => decodeOnto ((h * 16 + l) :: read) (position + 2) rest
    | none, _ => .error (.invalidDigit high position)
    | _, none => .error (.invalidDigit low (position + 1))

-- The length is judged before any digit is.
def decode (text : String) : Except HexError Bytes :=
  if text.utf8ByteSize % 2 = 1 then .error .oddLength else decodeOnto [] 0 (Text.bytes text)

end Hex

end LightningRecords

import LightningRecords.Hex
import LightningRecords.Sha256

namespace LightningRecords

-- Where a record lives in its table: the digest of what the record is about.
structure Key where
  bytes : Bytes
  width : bytes.length = 32

-- Why no key can be made of a kind and an identity.
inductive KeyError where
  | emptyKind
  | colonInKind (kind : String)
  | emptyIdentity (kind : String)
  | noParts (kind : String)
  | emptyPart (kind : String)
  | colonInPart (part kind : String)
deriving DecidableEq, Repr

def KeyError.message : KeyError → String
  | .emptyKind => "empty entity type for key"
  | .colonInKind kind => s!"entity type `{kind}` contains `:`"
  | .emptyIdentity kind => s!"empty identifier for `{kind}` key"
  | .noParts kind => s!"no identity parts for `{kind}` key"
  | .emptyPart kind => s!"empty identity part for `{kind}` key"
  | .colonInPart part kind => s!"identity part `{part}` for `{kind}` key contains `:`"

namespace Key

instance : DecidableEq Key := fun a b =>
  if h : a.bytes = b.bytes then .isTrue (by cases a; cases b; simp_all)
  else .isFalse fun e => h (congrArg bytes e)

def compare (a b : Key) : Ordering := Bytes.compare a.bytes b.bytes

def ofBytes? (bytes : Bytes) : Option Key :=
  if h : bytes.length = 32 then some ⟨bytes, h⟩ else none

def hex (key : Key) : String := Hex.encode key.bytes

-- The byte of a colon is a colon wherever it stands in UTF-8.
def colon : UInt8 := 0x3A

def hasColon (text : String) : Bool := (Text.bytes text).contains colon

def checkKind (kind : String) : Except KeyError Unit :=
  if kind.isEmpty then .error .emptyKind
  else if hasColon kind then .error (.colonInKind kind)
  else .ok ()

-- What is hashed: the kind, a colon, and the identity, which may hold colons.
def preimage (kind identity : String) : Except KeyError Bytes := do
  checkKind kind
  if identity.isEmpty then .error (.emptyIdentity kind)
  else .ok (Text.bytes kind ++ colon :: Text.bytes identity)

def checkPart (kind part : String) : Except KeyError Unit :=
  if part.isEmpty then .error (.emptyPart kind)
  else if hasColon part then .error (.colonInPart part kind)
  else .ok ()

-- What is hashed for an identity of several parts. The parts are judged before
-- the kind, in their order, and joined by colons.
def compositePreimage (kind : String) (parts : List String) : Except KeyError Bytes := do
  if parts.isEmpty then .error (.noParts kind)
  else
    parts.forM (checkPart kind)
    preimage kind (":".intercalate parts)

def ofPreimage (message : Bytes) : Key := ⟨Sha256.digest message, Sha256.length_digest message⟩

def derive (kind identity : String) : Except KeyError Key :=
  (preimage kind identity).map ofPreimage

def deriveComposite (kind : String) (parts : List String) : Except KeyError Key :=
  (compositePreimage kind parts).map ofPreimage

end Key

end LightningRecords

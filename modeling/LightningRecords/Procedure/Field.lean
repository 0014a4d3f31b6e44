import LightningRecords.Schema
import LightningRecords.SyncError
import LightningRecords.Text.Blank

namespace LightningRecords.Field

-- A text that is more than white space.
def require (entity field text : String) : Except SyncError Unit :=
  if Text.isBlank text then .error (.invalid entity (.missing field)) else .ok ()

-- A height that is stated at all.
def height (entity field : String) (n : UInt32) : Except SyncError Unit :=
  if n = 0 then .error (.invalid entity (.missing field)) else .ok ()

-- The bytes that a text spells.
def hex (entity field text : String) : Except SyncError Bytes := do
  require entity field text
  match Hex.decode text with
  | .ok bytes => .ok bytes
  | .error error => .error (.invalid entity (.notHex field error))

-- An index that fits a stored number.
def index (entity field : String) (n : UInt64) : Except SyncError Int64 :=
  if (n.toNat : Int) ≤ Int64.maxValue.toInt then .ok (Int64.ofNat n.toNat)
  else .error (.invalid entity (.outOfRange field n.toNat))

-- The key of a record with the given identity.
def key (schema : Schema) (parts : List String) : Except SyncError Key :=
  match Key.deriveComposite schema.kind parts with
  | .ok key => .ok key
  | .error error => .error (.store (.invalid (.key error)))

end LightningRecords.Field

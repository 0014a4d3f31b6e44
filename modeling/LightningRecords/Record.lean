import LightningRecords.OrderedMap
import LightningRecords.Value.Order

namespace LightningRecords

-- Attributes with their values, in the order of the attribute names' bytes.
abbrev Record := OrderedMap Text.compare Value

namespace Record

-- The attribute that counts the updates of a record.
def revisionAttribute : String := "_rev"

def revision? (record : Record) : Option Int64 :=
  (record.get? revisionAttribute).bind Value.asInt?

-- The record cut down to the listed attributes.
def project (record : Record) (attributes : List String) : Record :=
  record.filter fun name _ => attributes.contains name

def without (record : Record) (name : String) : Record := record.erase name

-- The first attribute whose expected value the stored record does not have.
-- Lists are expected as sets.
def mismatch? (stored expected : Record) : Option String :=
  let differs := fun (name, value) =>
    match stored.get? name with
    | some current => !current.setEq value
    | none => true
  (expected.toList.find? differs).map (·.1)

end Record

end LightningRecords

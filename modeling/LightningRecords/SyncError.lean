import LightningRecords.Duration
import LightningRecords.Store.Error

namespace LightningRecords

-- What is wrong with the input of a procedure.
inductive InvalidField where
  | missing (field : String)
  | notHex (field : String) (error : HexError)
  | outOfRange (field : String) (value : Nat)
  | noAttempts
  | delays (least most : Nat)
  | other (message : String)
deriving DecidableEq, Repr

def InvalidField.message : InvalidField → String
  | .missing field => s!"expected {field}"
  | .notHex field error => s!"{field} is not hex: {error.message}"
  | .outOfRange field value => s!"{field} {value} is out of range"
  | .noAttempts => "max_attempts must be at least 1"
  | .delays least most =>
    s!"min_delay {Duration.text least} exceeds max_delay {Duration.text most}"
  | .other message => message

-- Why a procedure did not come to an end.
inductive SyncError where
  | invalid (entity : String) (why : InvalidField)
  | store (error : StoreError)
  | source (entity message : String)
  | retriesExhausted (attempts : UInt32) (last : SyncError)
deriving DecidableEq

namespace SyncError

def message : SyncError → String
  | .invalid entity why => s!"invalid {entity} input: {why.message}"
  | .store error => error.message
  | .source entity message => s!"{entity} lookup failed: {message}"
  | .retriesExhausted attempts last => s!"gave up after {attempts.toNat} attempts: {last.message}"

def kind : SyncError → ErrorKind
  | .invalid .. => .validation
  | .store error => error.kind
  | .source .. | .retriesExhausted .. => .storage

def isCapacity : SyncError → Bool
  | .store error => error.isCapacity
  | _ => false

def isRetryable : SyncError → Bool
  | .store error => error.isRetryable
  | _ => false

-- The text of the failure underneath. An error of the store stands for itself.
def source? : SyncError → Option String
  | .invalid .. => none
  | .store error => error.source?
  | .source _ message => some message
  | .retriesExhausted _ last => some last.message

end SyncError

end LightningRecords

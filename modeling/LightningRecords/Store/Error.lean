import LightningRecords.Changes
import LightningRecords.Key
import LightningRecords.Record.Codec
import LightningRecords.Store.Config

namespace LightningRecords

-- Who has to act on an error: the caller, another try, or the operator.
inductive ErrorKind where
  | validation
  | conflict
  | storage
deriving DecidableEq, Repr

def ErrorKind.name : ErrorKind → String
  | .validation => "validation"
  | .conflict => "conflict"
  | .storage => "storage"

def ErrorKind.status : ErrorKind → Nat
  | .validation => 400
  | .conflict => 409
  | .storage => 503

inductive TableNameError where
  | length (bytes : Nat)
  | characters (table : String)
deriving DecidableEq, Repr

def maxTableName : Nat := 64

def TableNameError.message : TableNameError → String
  | .length bytes => s!"table name must be 1..={maxTableName} bytes, got {bytes}"
  | .characters table => s!"table name `{table}` has invalid characters"

-- What a caller got wrong.
inductive InvalidInput where
  | key (error : KeyError)
  | tableName (error : TableNameError)
  | config (error : ConfigError)
  | change (error : ChangeError)
  | other (message : String)
deriving DecidableEq, Repr

def InvalidInput.message : InvalidInput → String
  | .key error => error.message
  | .tableName error => error.message
  | .config error => error.message
  | .change error => error.message
  | .other message => message

-- Which guard of a write did not hold.
inductive ConflictReason where
  | freshViolation (name : String)
  | expectMismatch (name : String)
deriving DecidableEq, Repr

def ConflictReason.message : ConflictReason → String
  | .freshViolation name => s!"fresh attribute `{name}` already set"
  | .expectMismatch name => s!"expected value of `{name}` does not match"

-- Why stored bytes cannot serve as the record they should be.
inductive Damage where
  | undecodable (error : DecodeError)
  | noRevision
  | other (message : String)
deriving DecidableEq, Repr

def Damage.message : Damage → String
  | .undecodable error => error.message
  | .noRevision => "stored record has no revision"
  | .other message => message

-- What the storage engine itself reports.
inductive EngineFailure where
  | mapFull
  | mapResized
  | corrupted
  | tablesFull
  | badValueSize
  | notFound
  | invalidFile
  | isDirectory
  | outOfMemory
  | noAccess
  | unevenMapSize (size : UInt64)
  | other (message : String)
deriving DecidableEq, Repr

def EngineFailure.message : EngineFailure → String
  | .mapFull => "MDB_MAP_FULL: Environment mapsize limit reached"
  | .mapResized => "MDB_MAP_RESIZED: Database contents grew beyond environment mapsize"
  | .corrupted => "MDB_CORRUPTED: Located page was wrong type"
  | .tablesFull => "MDB_DBS_FULL: Environment maxdbs limit reached"
  | .badValueSize =>
    "MDB_BAD_VALSIZE: Unsupported size of key/DB name/data, or wrong DUPFIXED size"
  | .notFound => "MDB_NOTFOUND: No matching key/data pair found"
  | .invalidFile => "MDB_INVALID: File is not an LMDB file"
  | .isDirectory => "Is a directory (os error 21)"
  | .outOfMemory => "Cannot allocate memory (os error 12)"
  | .noAccess => "Permission denied (os error 13)"
  | .unevenMapSize size =>
    s!"map size ({size.toNat}) must be a multiple of the system page size ({pageSize})"
  | .other message => message

-- The map is full, or was made larger by someone else.
def EngineFailure.isMapLimit : EngineFailure → Bool
  | .mapFull | .mapResized => true
  | _ => false

inductive StoreError where
  | invalid (why : InvalidInput)
  | notFound (table : String)
  | conflict (table : String) (reason : ConflictReason) (stored : Record)
  | capacityExhausted (operation : String) (mapSize : UInt64)
  | corrupted (table : String) (damage : Damage)
  | engine (operation : String) (failure : EngineFailure)
  | close (operation : String) (failure : EngineFailure)
  | io (path message : String)
deriving DecidableEq

namespace StoreError

def message : StoreError → String
  | .invalid why => s!"invalid input: {why.message}"
  | .notFound table => s!"no record to update in table `{table}`"
  | .conflict table reason _ => s!"write conflict in table `{table}`: {reason.message}"
  | .capacityExhausted operation mapSize =>
    s!"map capacity exhausted during {operation}, grown to {mapSize.toNat} bytes"
  | .corrupted table damage => s!"corrupted record in table `{table}`: {damage.message}"
  | .engine operation failure =>
    s!"storage engine failure during {operation}: {failure.message}"
  | .close operation failure =>
    s!"failed to close transaction after {operation}: {failure.message}"
  | .io path message => s!"I/O error in {path}: {message}"

def kind : StoreError → ErrorKind
  | .invalid _ => .validation
  | .notFound _ | .conflict .. | .capacityExhausted .. => .conflict
  | .corrupted .. | .engine .. | .close .. | .io .. => .storage

def isCapacity : StoreError → Bool
  | .capacityExhausted .. => true
  | _ => false

-- Another try may go better.
def isRetryable (error : StoreError) : Bool := error.kind = .conflict

-- The record that a refused write found.
def stored? : StoreError → Option Record
  | .conflict _ _ stored => some stored
  | _ => none

-- The text of the failure underneath.
def source? : StoreError → Option String
  | .engine _ failure => some failure.message
  | .close _ failure => some failure.message
  | .io _ message => some message
  | _ => none

-- A record of the same identity was there first.
def isFreshViolation : StoreError → Bool
  | .conflict _ (.freshViolation _) _ => true
  | _ => false

def isMapLimit : StoreError → Bool
  | .engine _ failure => failure.isMapLimit
  | _ => false

end StoreError

end LightningRecords

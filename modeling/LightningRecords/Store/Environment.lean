import LightningRecords.Query
import LightningRecords.Store.Error

namespace LightningRecords

-- Encoded records under their keys, in bytewise key order.
abbrev Table := OrderedMap Bytes.compare Bytes

abbrev Tables := OrderedMap Text.compare Table

-- Bytes that the entries take.
def Tables.weight (tables : Tables) : Nat :=
  let rowWeight := fun (row : Bytes × Bytes) => row.1.length + row.2.length
  let tableWeight := fun (rows : Table) => rows.toList.foldl (fun n row => n + rowWeight row) 0
  tables.toList.foldl (fun n (_, rows) => n + tableWeight rows) 0

-- An assumption about the engine: a data file takes two pages about the file itself,
-- and the entries.
def Tables.fileSize (tables : Tables) : UInt64 := clampSize (2 * pageSize + tables.weight)

-- When the engine reports a map of some size as full: if it would have to hold tables
-- like these. How the engine lays its pages out is its own affair, so the rule is
-- open.
structure Capacity where
  isFull : UInt64 → Tables → Bool

-- The assumption about the engine that is made where none is stated: a map is full if
-- the entries are more than it can hold however they are laid out.
def Capacity.byWeight : Capacity := ⟨fun mapSize tables => mapSize.toNat < tables.weight⟩

-- One opening of a directory: its tables, the tables that hold a slot, in the
-- order in which they took it, how large the data may become, and when they have.
structure Environment where
  config : Config
  mapSize : UInt64
  slots : List String
  tables : Tables
  capacity : Capacity := .byWeight

-- What goes wrong with a transaction besides what is done in it: it cannot be begun
-- or ended, or the map cannot be measured or made larger after it.
structure Mishaps where
  atBegin : Option EngineFailure := none
  atEnd : Option EngineFailure := none
  atMeasure : Option EngineFailure := none
  atResize : Option EngineFailure := none
deriving DecidableEq, Repr

namespace Environment

-- A new opening has all its slots free.
def start (config : Config) (fileSize : UInt64) (tables : Tables)
    (capacity : Capacity := .byWeight) : Environment :=
  { config
    mapSize := config.mapSizeAtOpen fileSize
    slots := []
    tables
    capacity }

def contents (e : Environment) (table : String) : Table := (e.tables.get? table).getD ∅

def checkTable (table : String) : Except StoreError Unit :=
  if table.isEmpty ∨ maxTableName < table.utf8ByteSize then
    .error (.invalid (.tableName (.length table.utf8ByteSize)))
  else if table.toList.all fun c => c.isAlphanum || c = '_' then .ok ()
  else .error (.invalid (.tableName (.characters table)))

-- Gives the table a slot if it has none. A table is refused when all slots are
-- taken, whether it exists or not.
def takeSlot (e : Environment) (operation table : String) : Except StoreError Environment :=
  if e.slots.contains table then .ok e
  else if e.config.maxTables.toNat ≤ e.slots.length then .error (.engine operation .tablesFull)
  else .ok { e with slots := e.slots ++ [table] }

-- The rows of a table that exists. One that does not takes no slot.
def openTable (e : Environment) (table : String) :
    Except StoreError (Option Table × Environment) := do
  let opened ← e.takeSlot "open table" table
  match e.tables.get? table with
  | some rows => .ok (some rows, opened)
  | none => .ok (none, e)

-- The rows of a table, which comes to exist if it did not.
def createTable (e : Environment) (table : String) : Except StoreError (Table × Environment) := do
  let opened ← e.takeSlot "create table" table
  match e.tables.get? table with
  | some rows => .ok (rows, opened)
  | none => .ok (∅, { opened with tables := opened.tables.insert table ∅ })

def setRows (e : Environment) (table : String) (rows : Table) : Environment :=
  { e with tables := e.tables.insert table rows }

-- Whether there is no room in the map for a row of some length, with which it would
-- hold these tables. There is none if the row alone is longer than the map, and
-- otherwise by the engine's own rule.
def isFull (e : Environment) (length : Nat) (tables : Tables) : Bool :=
  e.mapSize.toNat < length || e.capacity.isFull e.mapSize tables

-- Stores bytes under a key if there is room for them.
def storeRow (e : Environment) (operation table : String) (rows : Table) (key bytes : Bytes) :
    Except StoreError Environment :=
  let stored := rows.insert key bytes
  if e.isFull bytes.length (e.tables.insert table stored) then .error (.engine operation .mapFull)
  else .ok (e.setRows table stored)

def decodeRow (table : String) (bytes : Bytes) : Except StoreError Record :=
  match Record.decode bytes with
  | .ok record => .ok record
  | .error error => .error (.corrupted table (.undecodable error))

-- The record under a key among the rows of a table.
def findRow (table : String) (rows : Table) (key : Key) : Except StoreError (Option Record) :=
  match rows.get? key.bytes with
  | some bytes => (decodeRow table bytes).map some
  | none => .ok none

-- The data file holds no more than the map.
def fileSize (e : Environment) : UInt64 := min e.mapSize e.tables.fileSize

-- Grows the map, unless it has grown since its size was observed.
def grow (e : Environment) (observed : UInt64) : Environment :=
  if observed < e.mapSize then e
  else { e with mapSize := e.config.grownMapSize e.mapSize e.fileSize }

-- Runs a body in a transaction on the state. One that fails leaves the state as it
-- was.
def read {α : Type} (e : Environment) (operation : String) (mishaps : Mishaps)
    (body : Environment → Except StoreError (α × Environment)) : Except StoreError α × Environment :=
  match mishaps.atBegin with
  | some failure => (.error (.engine operation failure), e)
  | none =>
    match body e with
    | .error error => (.error error, e)
    | .ok (result, next) =>
      match mishaps.atEnd with
      | some failure => (.error (.close operation failure), e)
      | none => (.ok result, next)

-- What comes of a write that the map was too small for: the map is made larger, and
-- the write has to be tried again.
def afterMapLimit {α : Type} (e : Environment) (operation : String) (mishaps : Mishaps) :
    Except StoreError α × Environment :=
  match mishaps.atMeasure, mishaps.atResize with
  | some failure, _ => (.error (.engine "disk size" failure), e)
  | none, some failure => (.error (.engine "resize" failure), e)
  | none, none =>
    let grown := e.grow e.mapSize
    (.error (.capacityExhausted operation grown.mapSize), grown)

-- As `read`, but the map may turn out to be too small at any point of it.
def write {α : Type} (e : Environment) (operation : String) (mishaps : Mishaps)
    (body : Environment → Except StoreError (α × Environment)) : Except StoreError α × Environment :=
  match mishaps.atBegin with
  | some failure =>
    if failure.isMapLimit then e.afterMapLimit operation mishaps
    else (.error (.engine operation failure), e)
  | none =>
    match body e with
    | .error error =>
      if error.isMapLimit then e.afterMapLimit operation mishaps else (.error error, e)
    | .ok (result, next) =>
      match mishaps.atEnd with
      | none => (.ok result, next)
      | some failure =>
        if failure.isMapLimit then e.afterMapLimit operation mishaps
        else (.error (.engine "commit" failure), e)

-- Names are checked before anything is opened.
def checked {α : Type} (e : Environment) (table : String)
    (run : Except StoreError α × Environment) : Except StoreError α × Environment :=
  match checkTable table with
  | .ok () => run
  | .error error => (.error error, e)

def get (e : Environment) (table : String) (key : Key) (mishaps : Mishaps := {}) :
    Except StoreError (Option Record) × Environment :=
  e.checked table <| e.read "get" mishaps fun e => do
    match ← e.openTable table with
    | (none, e) => .ok (none, e)
    | (some rows, e) => .ok (← findRow table rows key, e)

-- Refuses a write over a record that has an attribute which must be fresh.
def checkFresh (table : String) (fresh : List String) (stored : Record) : Except StoreError Unit :=
  match fresh.find? stored.contains with
  | some name => .error (.conflict table (.freshViolation name) stored)
  | none => .ok ()

-- Stores a record in place of the one under its key. The old one is deleted
-- first.
def put (e : Environment) (table : String) (key : Key) (record : Record)
    (fresh : Option (List String)) (mishaps : Mishaps := {}) :
    Except StoreError Unit × Environment :=
  e.checked table <| e.write "put" mishaps fun e => do
    let (rows, e) ← e.createTable table
    match ← findRow table rows key with
    | none => .ok ((), ← e.storeRow "put" table rows key.bytes record.encode)
    | some stored =>
      checkFresh table (fresh.getD []) stored
      let rows := rows.erase key.bytes
      let e := e.setRows table rows
      .ok ((), ← e.storeRow "put" table rows key.bytes record.encode)

-- Refuses an update of a record that is not as expected.
def checkExpected (table : String) (expected : Option Record) (stored : Record) :
    Except StoreError Unit :=
  match expected.bind stored.mismatch? with
  | some name => .error (.conflict table (.expectMismatch name) stored)
  | none => .ok ()

def applyChanges (changes : Changes) (stored : Record) : Except StoreError Record :=
  match changes.apply stored with
  | .ok record => .ok record
  | .error error => .error (.invalid (.change error))

-- Changes the record under a key. There has to be one.
def update (e : Environment) (table : String) (key : Key) (changes : Changes)
    (expected : Option Record) (mishaps : Mishaps := {}) :
    Except StoreError Record × Environment :=
  e.checked table <| e.write "update" mishaps fun e => do
    match ← e.openTable table with
    | (none, _) => .error (.notFound table)
    | (some rows, e) =>
      match ← findRow table rows key with
      | none => .error (.notFound table)
      | some stored =>
        checkExpected table expected stored
        let record ← applyChanges changes stored
        .ok (record, ← e.storeRow "update" table rows key.bytes record.encode)

-- Whether there was a record to delete.
def remove (e : Environment) (table : String) (key : Key) (mishaps : Mishaps := {}) :
    Except StoreError Bool × Environment :=
  e.checked table <| e.write "remove" mishaps fun e => do
    match ← e.openTable table with
    | (none, e) => .ok (false, e)
    | (some rows, e) => .ok (rows.contains key.bytes, e.setRows table (rows.erase key.bytes))

-- The entries that a query reads: from the first key at its start up to the
-- first key past its end, and no more than its limit.
def stretch (query : Query) (rows : Table) : List (Bytes × Bytes) :=
  let isBefore := fun (key, _) => Bytes.compare key (query.keyStart.getD []) == .lt
  let entries := (rows.toList.dropWhile isBefore).takeWhile fun (key, _) => !query.isPastEnd key
  match query.limit with
  | some limit => entries.take limit
  | none => entries

-- The rows of a query. Every entry read has to decode, wanted or not.
def selectRows (table : String) (query : Query) (rows : Table) : Except StoreError (List Row) := do
  let found ← (stretch query rows).mapM fun (key, bytes) =>
    (decodeRow table bytes).map fun record => Row.mk key record
  .ok (found.filter fun row => query.accepts row.record)

-- An empty start is no place to begin a scan at.
def query (e : Environment) (table : String) (query : Query) (mishaps : Mishaps := {}) :
    Except StoreError (List Row) × Environment :=
  e.checked table <|
    if query.limit = some 0 then (.ok [], e)
    else e.read "query" mishaps fun e => do
      match ← e.openTable table with
      | (none, e) => .ok ([], e)
      | (some rows, e) =>
        if query.keyStart = some [] then .error (.engine "query" .badValueSize)
        else .ok (← selectRows table query rows, e)

def length (e : Environment) (table : String) (mishaps : Mishaps := {}) :
    Except StoreError Nat × Environment :=
  e.checked table <| e.read "len" mishaps fun e => do
    match ← e.openTable table with
    | (none, e) => .ok (0, e)
    | (some rows, e) => .ok (rows.size, e)

-- Entries of one table and the size of the map it lives in.
structure Stats where
  entries : Nat
  mapSize : UInt64
deriving DecidableEq, Repr

def stats (e : Environment) (table : String) (mishaps : Mishaps := {}) :
    Except StoreError Stats × Environment :=
  let (entries, e) := e.length table mishaps
  (entries.map fun entries => ⟨entries, e.mapSize⟩, e)

-- The environment with bytes placed under a key as they are, whether they are a
-- record or not.
def plant (e : Environment) (table : String) (key bytes : Bytes) : Environment :=
  e.setRows table ((e.contents table).insert key bytes)

end Environment

end LightningRecords

import LightningRecords.Proofs.Record.Pointwise
import LightningRecords.Proofs.Store.Rows
import Mathlib.Logic.Function.Basic

namespace LightningRecords

instance : Std.TransCmp Key.compare where
  eq_swap {a b} := @Std.OrientedCmp.eq_swap _ Bytes.compare _ a.bytes b.bytes
  isLE_trans {a b c} := @Std.TransCmp.isLE_trans _ Bytes.compare _ a.bytes b.bytes c.bytes

instance : Std.LawfulEqCmp Key.compare where
  compare_self {a} := @Std.ReflCmp.compare_self _ Bytes.compare _ a.bytes
  eq_of_compare {a b} h :=
    Environment.key_bytes_inj (@Std.LawfulEqCmp.eq_of_compare _ Bytes.compare _ a.bytes b.bytes h)

-- What can be asked of a store.
inductive Operation where
  | get (table : String) (key : Key)
  | put (table : String) (key : Key) (record : Record) (fresh : Option (List String))
  | update (table : String) (key : Key) (changes : Changes) (expected : Option Record)
  | remove (table : String) (key : Key)
  | length (table : String)

-- What it tells.
inductive Reply where
  | found (result : Except StoreError (Option Record))
  | stored (result : Except StoreError Unit)
  | changed (result : Except StoreError Record)
  | removed (result : Except StoreError Bool)
  | counted (result : Except StoreError Nat)
deriving DecidableEq

namespace Operation

def table : Operation → String
  | .get table _ | .put table .. | .update table .. | .remove table _ | .length table => table

-- The record that an operation has written if this was the reply to it.
def written? : Operation → Reply → Option Record
  | .put _ _ record _, .stored (.ok ()) => some record
  | .update .., .changed (.ok record) => some record
  | _, _ => none

-- The reply to an operation that is to write a record and finds no room for it, if
-- this would be the reply to it otherwise.
def cramped? (mapSize : UInt64) : Operation → Reply → Option Reply
  | .put .., .stored (.ok ()) => some (.stored (.error (.capacityExhausted "put" mapSize)))
  | .update .., .changed (.ok _) =>
    some (.changed (.error (.capacityExhausted "update" mapSize)))
  | _, _ => none

end Operation

-- The replies to operations in turn, of someone who has a state.
def replies {ι σ : Type} (perform : ι → σ → Reply × σ) : List ι → σ → List Reply
  | [], _ => []
  | o :: rest, s => (perform o s).1 :: replies perform rest (perform o s).2

def written (os : List Operation) (rs : List Reply) : List Record :=
  (os.zip rs).filterMap fun (o, r) => o.written? r

theorem mem_written_cons {o : Operation} {os : List Operation} {r : Reply} {rs : List Reply}
    {record : Record} : record ∈ written (o :: os) (r :: rs) ↔
      record ∈ o.written? r ∨ record ∈ written os rs := by
  simp [written]

def Environment.perform : Operation → Environment → Reply × Environment
  | .get table key, e => (e.get table key).map .found id
  | .put table key record fresh, e => (e.put table key record fresh).map .stored id
  | .update table key changes expected, e => (e.update table key changes expected).map .changed id
  | .remove table key, e => (e.remove table key).map .removed id
  | .length table, e => (e.length table).map .counted id

-- The store in which the engine reports the map as full, or as not full, whatever is
-- to be stored.
def Environment.told (e : Environment) (isFull : Bool) : Environment :=
  { e with capacity := ⟨fun _ _ => isFull⟩ }

-- An operation, and what the engine reports when it is performed. The engine need not
-- have a rule for it.
def Environment.performTold : Operation × Bool → Environment → Reply × Environment
  | (o, isFull), e => (e.told isFull).perform o

-- The stored attribute is there and has this value, or has the same members as
-- this list.
def Record.Agrees (stored : Record) (name : String) (value : Value) : Prop :=
  ∃ current, stored.get? name = some current ∧
    (current = value ∨ ∃ as bs, current = .list as ∧ value = .list bs ∧ ∀ v, v ∈ as ↔ v ∈ bs)

theorem Record.agrees_iff (stored : Record) (name : String) (value : Value) :
    stored.Agrees name value ↔
      ∃ current, stored.get? name = some current ∧ current.setEq value = true := by
  simp only [Agrees, Value.setEq_iff]

instance (stored : Record) (name : String) (value : Value) :
    Decidable (stored.Agrees name value) :=
  decidable_of_iff ((stored.get? name).any fun current => current.setEq value) <| by
    rw [Record.agrees_iff, Option.any_eq_true]

-- Records under their keys, for each table.
abbrev Shelf := OrderedMap Key.compare Record

abbrev Plain := String → Shelf

namespace Plain

def empty : Plain := fun _ => ∅

-- The first of the attributes, in their order, that a stored record has, with that
-- record.
def refusal? (stored : Option Record) (fresh : List String) : Option (String × Record) :=
  stored.bind fun stored =>
    (fresh.find? fun name => (stored.get? name).isSome).map fun name => (name, stored)

-- The first expected attribute, in attribute order, that the stored record does not
-- have as expected.
def unexpected? (stored expected : Record) : Option String :=
  (expected.toList.find? fun (name, value) => ¬stored.Agrees name value).map (·.1)

def update (m : Plain) (table : String) (key : Key) (changes : Changes) (expected : Record) :
    Except StoreError Record :=
  match (m table).get? key with
  | none => .error (.notFound table)
  | some stored =>
    match unexpected? stored expected with
    | some name => .error (.conflict table (.expectMismatch name) stored)
    | none =>
      match changes.misfit? stored with
      | some error => .error (.invalid (.change error))
      | none => .ok (changes.pointwise stored)

def set (m : Plain) (table : String) (key : Key) (record : Record) : Plain :=
  Function.update m table ((m table).insert key record)

-- What the operations mean: a map, and nothing that could fail besides what the
-- caller asks for.
def perform : Operation → Plain → Reply × Plain
  | .get table key, m => (.found (.ok ((m table).get? key)), m)
  | .put table key record fresh, m =>
    match refusal? ((m table).get? key) (fresh.getD []) with
    | some (name, stored) => (.stored (.error (.conflict table (.freshViolation name) stored)), m)
    | none => (.stored (.ok ()), m.set table key record)
  | .update table key changes expected, m =>
    match m.update table key changes (expected.getD ∅) with
    | .error error => (.changed (.error error), m)
    | .ok record => (.changed (.ok record), m.set table key record)
  | .remove table key, m =>
    (.removed (.ok ((m table).contains key)), Function.update m table ((m table).erase key))
  | .length table, m => (.counted (.ok (m table).size), m)

-- What they mean if the engine may report the map as full: what would be written then
-- is not, and the reply tells to what size the map has grown.
def performTold (config : Config) : Operation × Bool → Plain × UInt64 → Reply × Plain × UInt64
  | (o, isFull), (m, mapSize) =>
    let (reply, next) := perform o m
    let grown := roundToGranule (config.above mapSize)
    match isFull, o.cramped? grown reply with
    | true, some told => (told, m, grown)
    | _, _ => (reply, next, mapSize)

end Plain

end LightningRecords

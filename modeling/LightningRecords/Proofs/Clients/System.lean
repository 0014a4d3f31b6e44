import LightningRecords.Proofs.Procedure.Calls

namespace LightningRecords

-- What a call has found under a key.
structure Loaded where
  table : String
  key : Key
  stored : Option Record

-- A write that the call `visit` asked for: what it had found, what stood there
-- just before and just after, and the record that was written or why none was.
structure Write where
  visit : Nat
  loaded : Option Loaded
  table : String
  key : Key
  before : Except StoreError (Option Record)
  reply : Except StoreError Record
  after : Except StoreError (Option Record)

-- A call on its way, and what it has done so far.
structure Visit where
  call : Call
  loaded : Option Loaded := none
  write : Option Write := none
  rest : Interaction (Except SyncError call.Result) := call.procedure.run

-- One environment with all the calls that were ever begun on it, and all the
-- writes that they asked for, in their order.
structure System where
  environment : Environment
  visits : List Visit := []
  writes : List Write := []

-- What may happen next: someone begins a call, or a call that was begun makes its
-- next request. A client that makes its calls one after another begins each when
-- the last has ended, but calls may as well overlap.
inductive Move where
  | begin (call : Call)
  | advance (visit : Nat) (answers : (q : Question) → Except String q.Answer)

def Request.loaded? : (r : Request) → r.Reply → Option Loaded
  | .load table key, .ok stored => some ⟨table, key, stored⟩
  | _, _ => none

def Request.write? (visit : Nat) (loaded : Option Loaded) (e e' : Environment) :
    (r : Request) → r.Reply → Option Write
  | .put table key record _, reply =>
    some ⟨visit, loaded, table, key, e.held table key, reply.map fun _ => record,
      e'.held table key⟩
  | .update table key _ _, reply =>
    some ⟨visit, loaded, table, key, e.held table key, reply, e'.held table key⟩
  | _, _ => none

namespace System

def start (config : Config) (fileSize : UInt64) (capacity : Capacity) : System where
  environment := Environment.start config fileSize ∅ capacity

-- A call makes a request and takes the reply.
def exchange (s : System) (i : Nat) (answers : (q : Question) → Except String q.Answer) (v : Visit)
    (r : Request) (next : r.Reply → Interaction (Except SyncError v.call.Result)) : System :=
  let reply := (s.environment.serve answers r).1
  let e := (s.environment.serve answers r).2
  let write := r.write? i v.loaded s.environment e reply
  { environment := e
    visits := s.visits.set i
      { call := v.call
        loaded := (r.loaded? reply).or v.loaded
        write := write.or v.write
        rest := next reply }
    writes := s.writes ++ write.toList }

def step (s : System) : Move → System
  | .begin call => { s with visits := s.visits ++ [{ call }] }
  | .advance i answers =>
    match s.visits[i]? with
    | none => s
    | some v =>
      match v.rest with
      | .done _ => s
      | .request r next => s.exchange i answers v r next

-- The states that a store which starts empty goes through, whatever is called
-- and however the requests of the calls are interleaved.
def run (config : Config) (fileSize : UInt64) (capacity : Capacity) (moves : List Move) : System :=
  moves.foldl step (start config fileSize capacity)

end System

-- The records that were written under a key, in their order.
def versions (writes : List Write) (table : String) (key : Key) : List Record :=
  writes.filterMap fun w =>
    if w.table = table ∧ w.key = key then w.reply.toOption else none

end LightningRecords

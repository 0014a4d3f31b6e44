import LightningRecords.Report
import LightningRecords.Store.Environment
import LightningRecords.SyncError

namespace LightningRecords

-- One thing that a procedure needs done for it.
inductive Request where
  | ask (question : Question)
  | load (table : String) (key : Key)
  | put (table : String) (key : Key) (record : Record) (fresh : List String)
  | update (table : String) (key : Key) (changes : Changes) (expected : Record)
  | pause (nanoseconds : Nat)

-- What comes back.
abbrev Request.Reply : Request → Type
  | .ask question => Except String question.Answer
  | .load .. => Except StoreError (Option Record)
  | .put .. => Except StoreError Unit
  | .update .. => Except StoreError Record
  | .pause _ => Unit

-- Requests one after another, each depending on the replies so far. Between a
-- reply and the next request anyone else may act.
inductive Interaction (α : Type) where
  | done (result : α)
  | request (r : Request) (next : r.Reply → Interaction α)

namespace Interaction

variable {α β : Type}

def bind : Interaction α → (α → Interaction β) → Interaction β
  | .done a, f => f a
  | .request r next, f => .request r fun reply => (next reply).bind f

instance : Monad Interaction where
  pure := .done
  bind := bind

@[simp] theorem bind_done (t : Interaction α) : t.bind .done = t := by
  induction t with
  | done a => rfl
  | request r next ih => simp only [bind, ih]

theorem bind_assoc {γ : Type} (t : Interaction α) (f : α → Interaction β) (g : β → Interaction γ) :
    (t.bind f).bind g = t.bind fun a => (f a).bind g := by
  induction t with
  | done a => rfl
  | request r next ih => simp only [bind, ih]

instance : LawfulMonad Interaction := LawfulMonad.mk' Interaction
  bind_done (fun _ _ => rfl) bind_assoc

-- Makes every request in turn, of someone who has a state of their own.
def run {σ : Type} (perform : (r : Request) → σ → r.Reply × σ) : Interaction α → σ → α × σ
  | .done a, s => (a, s)
  | .request r next, s =>
    let (reply, s) := perform r s
    (next reply).run perform s

theorem run_bind {σ : Type} (perform : (r : Request) → σ → r.Reply × σ) (t : Interaction α)
    (f : α → Interaction β) (s : σ) :
    (t.bind f).run perform s = (f (t.run perform s).1).run perform (t.run perform s).2 := by
  induction t generalizing s with
  | done a => rfl
  | request r next ih => simp only [bind, run, ih]

end Interaction

-- An interaction that may fail.
abbrev Procedure (α : Type) := ExceptT SyncError Interaction α

namespace Procedure

variable {α : Type}

def ofExcept (result : Except SyncError α) : Procedure α := ExceptT.mk (.done result)

def request (r : Request) : Procedure r.Reply := ExceptT.mk (.request r fun reply => .done (.ok reply))

-- Asks the local node about an entity.
def ask (entity : String) (question : Question) : Procedure question.Answer := do
  match ← request (.ask question) with
  | .ok answer => pure answer
  | .error message => throw (.source entity message)

def load (table : String) (key : Key) : Procedure (Option Record) := do
  match ← request (.load table key) with
  | .ok stored => pure stored
  | .error error => throw (.store error)

def update (table : String) (key : Key) (changes : Changes) (expected : Record) :
    Procedure Record := do
  match ← request (.update table key changes expected) with
  | .ok record => pure record
  | .error error => throw (.store error)

end Procedure

-- Serves a request out of an environment, with every question's answer settled.
def Environment.serve (answers : (q : Question) → Except String q.Answer) :
    (r : Request) → Environment → r.Reply × Environment
  | .ask question, e => (answers question, e)
  | .load table key, e => e.get table key
  | .put table key record fresh, e => e.put table key record (some fresh)
  | .update table key changes expected, e => e.update table key changes (some expected)
  | .pause _, e => ((), e)

end LightningRecords

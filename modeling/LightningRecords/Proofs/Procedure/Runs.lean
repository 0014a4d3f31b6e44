import LightningRecords.Procedure.Basic
import LightningRecords.Proofs.Store.Rows

namespace LightningRecords

-- Whether a request was a write, and was done.
def Request.commits : (r : Request) → r.Reply → Bool
  | .put .., reply => reply.isOk
  | .update .., reply => reply.isOk
  | .ask _, _ | .load .., _ | .pause _, _ => false

theorem Environment.serve_keeps {answers : (q : Question) → Except String q.Answer} {r : Request}
    {e : Environment} (h : r.commits (e.serve answers r).1 = false) :
    e.Keeps (e.serve answers r).2 := by
  cases r with
  | ask question => exact .refl e
  | pause nanoseconds => exact .refl e
  | load table key => exact get_keeps rfl
  | put table key record fresh =>
    cases hput : e.put table key record (some fresh) with
    | mk reply after =>
      simp only [serve, hput] at h ⊢
      cases reply with
      | error error => exact put_eq_error hput
      | ok => cases h
  | update table key changes expected =>
    cases hupdate : e.update table key changes (some expected) with
    | mk reply after =>
      simp only [serve, hupdate] at h ⊢
      cases reply with
      | error error => exact update_eq_error hupdate
      | ok record => cases h

-- What a write was to store is stored: the record of a put, or the changed record that an
-- update tells.
def Request.Stores (e e' : Environment) : (r : Request) → r.Reply → Prop
  | .put table key record _, reply => reply = .ok () ∧ e.Writes table key record e'
  | .update table key _ _, reply => ∃ record, reply = .ok record ∧ e.Writes table key record e'
  | .ask _, _ | .load .., _ | .pause _, _ => False

theorem Request.Stores.writes {r : Request} {reply : r.Reply} {e e' : Environment}
    (h : r.Stores e e' reply) : ∃ table key record, e.Writes table key record e' := by
  cases r with
  | ask question => exact h.elim
  | pause nanoseconds => exact h.elim
  | load table key => exact h.elim
  | put table key record fresh => exact ⟨table, key, record, h.2⟩
  | update table key changes expected =>
    obtain ⟨record, _, hwrites⟩ := h
    exact ⟨table, key, record, hwrites⟩

theorem Environment.serve_stores {answers : (q : Question) → Except String q.Answer} {r : Request}
    {e : Environment} (h : r.commits (e.serve answers r).1 = true) :
    r.Stores e (e.serve answers r).2 (e.serve answers r).1 := by
  cases r with
  | ask question => cases h
  | pause nanoseconds => cases h
  | load table key => cases h
  | put table key record fresh =>
    cases hput : e.put table key record (some fresh) with
    | mk reply after =>
      simp only [serve, hput] at h ⊢
      cases reply with
      | error error => cases h
      | ok => exact ⟨rfl, (put_eq_ok hput).1⟩
  | update table key changes expected =>
    cases hupdate : e.update table key changes (some expected) with
    | mk reply after =>
      simp only [serve, hupdate] at h ⊢
      cases reply with
      | error error => cases h
      | ok record => exact ⟨record, rfl, (update_eq_ok hupdate).1⟩

-- A request with what the node would answer and the environment that it met.
structure Exchange where
  request : Request
  answers : (q : Question) → Except String q.Answer
  before : Environment

namespace Exchange

def reply (x : Exchange) : x.request.Reply := (x.before.serve x.answers x.request).1

def after (x : Exchange) : Environment := (x.before.serve x.answers x.request).2

def commits (x : Exchange) : Bool := x.request.commits x.reply

-- Nothing was written.
def Quiet (x : Exchange) : Prop := x.commits = false ∧ x.after.tables = x.before.tables

-- What was to be written is stored.
def Stores (x : Exchange) : Prop := x.request.Stores x.before x.after x.reply

theorem stores_of_commits {x : Exchange} (h : x.commits = true) : x.Stores :=
  Environment.serve_stores h

theorem quiet_of_not_commits {x : Exchange} (h : x.commits = false) : x.Quiet :=
  ⟨h, (Environment.serve_keeps h).tables⟩

end Exchange

-- Of several exchanges, one and no other is a write that was done, and has stored what it
-- was to store.
def WritesOnce (exchanges : List Exchange) : Prop :=
  ∃ earlier write later, exchanges = earlier ++ write :: later ∧ write.commits = true ∧
    write.Stores ∧ ∀ x ∈ earlier ++ later, x.Quiet

theorem WritesOnce.among {exchanges earlier later : List Exchange} (h : WritesOnce exchanges)
    (hearlier : ∀ x ∈ earlier, x.Quiet) (hlater : ∀ x ∈ later, x.Quiet) :
    WritesOnce (earlier ++ (exchanges ++ later)) := by
  obtain ⟨before, write, after, rfl, hwrite, hstores, hquiet⟩ := h
  refine ⟨earlier ++ before, write, after ++ later, by simp, hwrite, hstores, fun x hx => ?_⟩
  simp only [List.mem_append] at hx hquiet
  rcases hx with (hx | hx) | hx | hx
  · exact hearlier x hx
  · exact hquiet x (.inl hx)
  · exact hquiet x (.inr hx)
  · exact hlater x hx

namespace Interaction

variable {α β : Type} {a : α} {b : β}

-- An interaction made these requests, whatever others did between them, and came
-- to this result.
inductive Ran : Interaction α → List Exchange → α → Prop where
  | done (a : α) : Ran (.done a) [] a
  | request {r : Request} {next : r.Reply → Interaction α} {exchanges : List Exchange} {a : α}
      (answers : (q : Question) → Except String q.Answer) (before : Environment)
      (h : Ran (next (before.serve answers r).1) exchanges a) :
      Ran (.request r next) (⟨r, answers, before⟩ :: exchanges) a

theorem Ran.of_bind {t : Interaction α} {f : α → Interaction β} {exchanges : List Exchange}
    (h : (t >>= f).Ran exchanges b) :
    ∃ first rest a, exchanges = first ++ rest ∧ t.Ran first a ∧ (f a).Ran rest b := by
  induction t generalizing exchanges with
  | done a => exact ⟨[], exchanges, a, rfl, .done a, h⟩
  | request r next ih =>
    cases h with
    | request answers before h =>
      obtain ⟨first, rest, a, rfl, hfirst, hrest⟩ := ih _ h
      exact ⟨_ :: first, rest, a, rfl, .request answers before hfirst, hrest⟩

end Interaction

-- What goes on around a run: before each of its requests others may have turned
-- the environment into any other, and the node may answer anew.
structure Surroundings where
  answers : Nat → (q : Question) → Except String q.Answer
  meddle : Nat → Environment → Environment

-- Serves a request in its surroundings and writes it down.
def Surroundings.serve (around : Surroundings) (r : Request) :
    Environment × List Exchange → r.Reply × Environment × List Exchange
  | (e, exchanges) =>
    let before := around.meddle exchanges.length e
    let x : Exchange := ⟨r, around.answers exchanges.length, before⟩
    (x.reply, x.after, exchanges ++ [x])

theorem Interaction.ran_run {α : Type} (t : Interaction α) (around : Surroundings)
    (e : Environment) (exchanges : List Exchange) :
    ∃ later, (t.run around.serve (e, exchanges)).2.2 = exchanges ++ later ∧
      t.Ran later (t.run around.serve (e, exchanges)).1 := by
  induction t generalizing e exchanges with
  | done a => exact ⟨[], (List.append_nil exchanges).symm, .done a⟩
  | request r next ih =>
    let x : Exchange :=
      ⟨r, around.answers exchanges.length, around.meddle exchanges.length e⟩
    obtain ⟨later, hlater, hran⟩ := ih x.reply x.after (exchanges ++ [x])
    refine ⟨x :: later, ?_, .request _ _ hran⟩
    rw [List.append_cons]
    exact hlater

end LightningRecords

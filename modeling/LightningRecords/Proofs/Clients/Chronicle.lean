import LightningRecords.Proofs.Clients.Lineage
import LightningRecords.Proofs.Clients.System
import LightningRecords.Proofs.Store.Room

namespace LightningRecords

theorem versions_append (earlier : List Write) (w : Write) (table : String) (key : Key) :
    versions (earlier ++ [w]) table key = versions earlier table key ++
      (if w.table = table ∧ w.key = key then w.reply.toOption else none).toList := by
  rw [versions, versions, List.filterMap_append]
  congr 1

-- How a write relates to all before it. The call had loaded `stored`.
structure Write.Follows (schema : Schema) (stored : Option Record) (earlier : List Write)
    (w : Write) : Prop where
  table : w.table = schema.table
  loaded : w.loaded = some ⟨w.table, w.key, stored⟩
  before : w.before = .ok (versions earlier w.table w.key).getLast?
  done : ∀ record, w.reply = .ok record →
    stored = (versions earlier w.table w.key).getLast? ∧ w.after = .ok (some record) ∧
      Lineage schema (versions earlier w.table w.key ++ [record])
  refused : ∀ error, w.reply = .error error → w.after = w.before
  taken : stored = none → ∀ found, (versions earlier w.table w.key).getLast? = some found →
    w.reply = .error (.conflict w.table (.freshViolation schema.unique) found)
  vacant : stored = none → (versions earlier w.table w.key).getLast? = none →
    ∀ error, w.reply = .error error →
      error = .engine "create table" .tablesFull ∨ ∃ size, error = .capacityExhausted "put" size

namespace Write.Follows

variable {schema : Schema} {stored : Option Record} {earlier : List Write} {w : Write}

theorem of_error {error : StoreError} (htable : w.table = schema.table)
    (hloaded : w.loaded = some ⟨w.table, w.key, stored⟩)
    (hbefore : w.before = .ok (versions earlier w.table w.key).getLast?)
    (hreply : w.reply = .error error) (hafter : w.after = w.before)
    (htaken : stored = none → ∀ found, (versions earlier w.table w.key).getLast? = some found →
      error = .conflict w.table (.freshViolation schema.unique) found)
    (hvacant : stored = none → (versions earlier w.table w.key).getLast? = none →
      error = .engine "create table" .tablesFull ∨
        ∃ size, error = .capacityExhausted "put" size) :
    w.Follows schema stored earlier where
  table := htable
  loaded := hloaded
  before := hbefore
  done := by
    intro record hrecord
    rw [hreply] at hrecord
    cases hrecord
  refused := fun _ _ => hafter
  taken := by
    intro hstored found hfound
    rw [hreply, htaken hstored found hfound]
  vacant := by
    intro hstored hnone cause hcause
    rw [hreply] at hcause
    cases hcause
    exact hvacant hstored hnone

theorem of_ok {record : Record} (htable : w.table = schema.table)
    (hloaded : w.loaded = some ⟨w.table, w.key, stored⟩)
    (hbefore : w.before = .ok (versions earlier w.table w.key).getLast?)
    (hreply : w.reply = .ok record) (hafter : w.after = .ok (some record))
    (hstored : stored = (versions earlier w.table w.key).getLast?)
    (hlineage : Lineage schema (versions earlier w.table w.key ++ [record])) :
    w.Follows schema stored earlier where
  table := htable
  loaded := hloaded
  before := hbefore
  done := by
    intro other hother
    rw [hreply] at hother
    cases hother
    exact ⟨hstored, hafter, hlineage⟩
  refused := by
    intro error herror
    rw [hreply] at herror
    cases herror
  taken := by
    intro hnone found hfound
    rw [← hstored, hnone] at hfound
    cases hfound
  vacant := by
    intro _ _ error herror
    rw [hreply] at herror
    cases herror

end Write.Follows

-- All writes that were ever asked for, each of them fit to follow the earlier ones.
inductive History : List Write → Prop where
  | nil : History []
  | append {earlier : List Write} {w : Write} {schema : Schema} {stored : Option Record}
      (h : History earlier) (hschema : schema ∈ Schema.all) (hw : w.Follows schema stored earlier) :
      History (earlier ++ [w])

namespace History

variable {writes earlier later : List Write} {w : Write} {schema : Schema}

theorem lineage (h : History writes) (hschema : schema ∈ Schema.all) (key : Key) :
    Lineage schema (versions writes schema.table key) := by
  induction h with
  | nil => exact .nil
  | @append earlier w other stored _ hother hw ih =>
    rw [versions_append]
    split
    · rename_i hplace
      obtain ⟨htable, rfl⟩ := hplace
      cases hreply : w.reply with
      | error error => simpa [Except.toOption] using ih
      | ok record =>
        have heq := Schema.eq_of_table_eq hother hschema (hw.table.symm.trans htable)
        have hlineage := (hw.done record hreply).2.2
        rwa [heq, htable] at hlineage
    · simpa using ih

theorem follows (h : History writes) (heq : writes = earlier ++ w :: later) :
    ∃ schema ∈ Schema.all, ∃ stored, w.Follows schema stored earlier := by
  induction h generalizing later with
  | nil => simp at heq
  | @append front last schema stored _ hschema hw ih =>
    rcases List.eq_nil_or_concat later with rfl | ⟨rest, final, rfl⟩
    · obtain ⟨rfl, hlast⟩ := List.append_inj' heq rfl
      cases hlast
      exact ⟨schema, hschema, stored, hw⟩
    · rw [List.concat_eq_append, ← List.cons_append, ← List.append_assoc] at heq
      exact ih (List.append_inj' heq rfl).1

end History

-- The environment holds the last version of everything that was written.
structure Chronicle (e : Environment) (writes : List Write) : Prop where
  history : History writes
  held : ∀ table key, e.held table key = .ok (versions writes table key).getLast?
  seated : ∀ table, (e.tables.get? table).isSome = true → table ∈ e.slots

namespace Chronicle

variable {e e' : Environment} {writes : List Write} {w : Write} {schema : Schema}
  {stored : Option Record} {record : Record}

theorem start (config : Config) (fileSize : UInt64) (capacity : Capacity) :
    Chronicle (Environment.start config fileSize ∅ capacity) [] where
  history := .nil
  held := fun _ _ => rfl
  seated := by
    intro table htable
    cases htable

theorem keeps (h : Chronicle e writes) (hkeeps : e.Keeps e') : Chronicle e' writes where
  history := h.history
  held := by
    intro table key
    rw [hkeeps.held]
    exact h.held table key
  seated := by
    intro table htable
    rw [hkeeps.tables] at htable
    exact hkeeps.slots (h.seated table htable)

theorem refused (h : Chronicle e writes) (hschema : schema ∈ Schema.all)
    (hw : w.Follows schema stored writes) {error : StoreError} (hreply : w.reply = .error error)
    (hkeeps : e.Keeps e') : Chronicle e' (writes ++ [w]) where
  history := h.history.append hschema hw
  held := by
    intro table key
    rw [versions_append, hreply, (h.keeps hkeeps).held]
    simp [Except.toOption]
  seated := (h.keeps hkeeps).seated

theorem done (h : Chronicle e writes) (hschema : schema ∈ Schema.all)
    (hw : w.Follows schema stored writes) (hreply : w.reply = .ok record)
    (hwrites : e.Writes w.table w.key record e') : Chronicle e' (writes ++ [w]) where
  history := h.history.append hschema hw
  held := by
    intro table key
    rw [versions_append, hreply]
    split
    · rename_i hplace
      obtain ⟨rfl, rfl⟩ := hplace
      have hstorable := (hw.done record hreply).2.2.storable record (by simp)
      simpa [Except.toOption] using hwrites.held_self hstorable
    · rename_i hplace
      rw [hwrites.held_other fun heq => hplace ⟨heq.1.symm, heq.2.symm⟩]
      simpa using h.held table key
  seated := by
    intro table htable
    by_cases heq : table = w.table
    · rw [heq]
      exact hwrites.seat
    · rw [hwrites.tables, OrderedMap.get?_insert_of_ne _ _ heq] at htable
      exact hwrites.slots (h.seated table htable)

section Requests

variable {i : Nat} {key : Key}

theorem put_taken (h : Chronicle e writes) (hschema : schema ∈ Schema.all) {fresh found : Record}
    {reply : Except StoreError Unit}
    (hput : e.put schema.table key fresh (some [schema.unique]) = (reply, e'))
    (hlast : (versions writes schema.table key).getLast? = some found)
    (hw : w = ⟨i, some ⟨schema.table, key, none⟩, schema.table, key, e.held schema.table key,
      reply.map fun _ => fresh, e'.held schema.table key⟩) :
    w.Follows schema none writes ∧ Chronicle e' (writes ++ [w]) := by
  have hheld := h.held schema.table key
  rw [hlast] at hheld
  have hlineage := h.history.lineage hschema key
  have hunique := hlineage.unique hschema found (List.mem_of_getLast? hlast)
  have hseat : schema.table ∈ e.slots :=
    h.seated _ (by rw [Environment.rows_of_held hheld, Option.isSome_some])
  rw [Environment.put_of_taken (Schema.checkTable_of_mem hschema) hseat hheld hunique] at hput
  cases hput
  have hfollows : w.Follows schema none writes := by
    subst hw
    refine .of_error rfl rfl (h.held _ _) rfl rfl (fun _ other hother => ?_) fun _ hvacant => ?_
    · rw [hlast] at hother
      cases hother
      rfl
    · rw [hlast] at hvacant
      cases hvacant
  exact ⟨hfollows, h.refused hschema hfollows (by rw [hw]; rfl) (.refl e)⟩

theorem put_vacant (h : Chronicle e writes) (hschema : schema ∈ Schema.all) {fresh : Record}
    (hfresh : schema.Drafts fresh) {reply : Except StoreError Unit}
    (hput : e.put schema.table key
      (fresh.insert Record.revisionAttribute (.int Schema.baseRevision)) (some [schema.unique]) =
        (reply, e'))
    (hlast : (versions writes schema.table key).getLast? = none)
    (hw : w = ⟨i, some ⟨schema.table, key, none⟩, schema.table, key, e.held schema.table key,
      reply.map fun _ => fresh.insert Record.revisionAttribute (.int Schema.baseRevision),
      e'.held schema.table key⟩) :
    w.Follows schema none writes ∧ Chronicle e' (writes ++ [w]) := by
  have hheld := h.held schema.table key
  rw [hlast] at hheld
  cases reply with
  | error error =>
    have hkeeps := Environment.put_eq_error hput
    have hcause := Environment.put_error_of_vacant (Schema.checkTable_of_mem hschema) hheld hput
    have hfollows : w.Follows schema none writes := by
      subst hw
      refine .of_error rfl rfl (h.held _ _) rfl (hkeeps.held _ _) (fun _ other hother => ?_)
        fun _ _ => hcause.imp_right fun heq => ⟨_, heq⟩
      rw [hlast] at hother
      cases hother
    exact ⟨hfollows, h.refused hschema hfollows (by rw [hw]; rfl) hkeeps⟩
  | ok =>
    have hwrites := (Environment.put_eq_ok hput).1
    have hfirst := Lineage.first hfresh
    have hafter := hwrites.held_self (hfirst.storable _ (by simp))
    have hfollows : w.Follows schema none writes := by
      subst hw
      refine .of_ok rfl rfl (h.held _ _) rfl hafter hlast.symm ?_
      rw [List.getLast?_eq_none_iff.mp hlast]
      exact hfirst
    subst hw
    exact ⟨hfollows, h.done hschema hfollows rfl hwrites⟩

-- A first write goes through only where nothing stands.
theorem put (h : Chronicle e writes) (hschema : schema ∈ Schema.all) {fresh : Record}
    (hfresh : schema.Drafts fresh) {reply : Except StoreError Unit}
    (hput : e.put schema.table key
      (fresh.insert Record.revisionAttribute (.int Schema.baseRevision)) (some [schema.unique]) =
        (reply, e'))
    (hw : w = ⟨i, some ⟨schema.table, key, none⟩, schema.table, key, e.held schema.table key,
      reply.map fun _ => fresh.insert Record.revisionAttribute (.int Schema.baseRevision),
      e'.held schema.table key⟩) :
    w.Follows schema none writes ∧ Chronicle e' (writes ++ [w]) := by
  cases hlast : (versions writes schema.table key).getLast? with
  | some found => exact h.put_taken hschema hput hlast hw
  | none => exact h.put_vacant hschema hfresh hput hlast hw

-- An update goes through only over the record that the call had loaded: versions
-- with the same revision are the same.
theorem update (h : Chronicle e writes) (hschema : schema ∈ Schema.all) {original : Record}
    (hloaded : original ∈ versions writes schema.table key) {revision : Int64}
    (hrevision : original.revision? = some revision) {changes : Changes}
    (hchanges : changes.Revises schema.Varies) {reply : Except StoreError Record}
    (hupdate : e.update schema.table key changes
      (some (OrderedMap.insert ∅ Record.revisionAttribute (.int revision))) = (reply, e'))
    (hw : w = ⟨i, some ⟨schema.table, key, some original⟩, schema.table, key,
      e.held schema.table key, reply, e'.held schema.table key⟩) :
    w.Follows schema (some original) writes ∧ Chronicle e' (writes ++ [w]) := by
  have hlineage := h.history.lineage hschema key
  cases reply with
  | error error =>
    have hkeeps := Environment.update_eq_error hupdate
    have hfollows : w.Follows schema (some original) writes := by
      subst hw
      exact .of_error rfl rfl (h.held _ _) rfl (hkeeps.held _ _) (by simp) (by simp)
    exact ⟨hfollows, h.refused hschema hfollows (by rw [hw]) hkeeps⟩
  | ok record =>
    obtain ⟨hwrites, stored, hstored, hexpected, happly⟩ := Environment.update_eq_ok hupdate
    rw [h.held] at hstored
    have hlast : (versions writes schema.table key).getLast? = some stored := by
      simpa using hstored
    have hget := Environment.revision_of_checkExpected hexpected
    have hsame : original = stored := by
      apply hlineage.eq_of_revision hloaded (List.mem_of_getLast? hlast) hrevision
      simp [Record.revision?, hget, Value.asInt?]
    subst hsame
    have hnext := hlineage.next hlast hchanges happly
    have hafter := hwrites.held_self (hnext.storable _ (by simp))
    have hfollows : w.Follows schema (some original) writes := by
      subst hw
      exact .of_ok rfl rfl (h.held _ _) rfl hafter hlast.symm hnext
    subst hw
    exact ⟨hfollows, h.done hschema hfollows rfl hwrites⟩

end Requests

end Chronicle

end LightningRecords

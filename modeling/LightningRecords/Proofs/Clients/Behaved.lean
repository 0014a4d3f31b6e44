import LightningRecords.Proofs.Clients.Invariant
import LightningRecords.Proofs.Procedure.Behaves
import Mathlib.Data.List.Induction

namespace LightningRecords

namespace StoreError

variable {e e' : Environment} {writes : List Write} {schema : Schema} {key : Key}
  {error : StoreError}

-- What stands can be read, so that a load fails for want of a slot only.
theorem isBenign_of_load (h : Chronicle e writes) (hschema : schema ∈ Schema.all)
    (hget : e.get schema.table key = (.error error, e')) : error.isBenign = true := by
  have hvalid := Schema.checkTable_of_mem hschema
  rw [Environment.get_error_of_held hvalid (h.held _ _) hget]
  rfl

theorem isBenign_of_put {w : Write} (hw : w.Follows schema none writes)
    (hreply : w.reply = .error error) : error.isBenign = true := by
  cases hlast : (versions writes w.table w.key).getLast? with
  | some found =>
    have htaken := hw.taken rfl found hlast
    rw [hreply] at htaken
    cases htaken
    rfl
  | none =>
    rcases hw.vacant rfl hlast error hreply with rfl | ⟨size, rfl⟩
    · rfl
    · rfl

theorem mismatch?_revision {stored : Record} {revision : Int64} {name : String}
    (h : stored.mismatch? (OrderedMap.insert ∅ Record.revisionAttribute (.int revision)) =
      some name) : name = Record.revisionAttribute := by
  obtain ⟨expected, hfound, rfl⟩ := Option.map_eq_some_iff.mp h
  rcases OrderedMap.mem_place (List.mem_of_find?_eq_some hfound) with rfl | hnone
  · rfl
  · cases hnone

-- A record that was loaded once still stands in some version.
theorem isBenign_of_update (h : Chronicle e writes) (hschema : schema ∈ Schema.all)
    {original : Record} (hloaded : original ∈ versions writes schema.table key)
    {changes : Changes} {revision : Int64}
    (hupdate : e.update schema.table key changes
      (some (OrderedMap.insert ∅ Record.revisionAttribute (.int revision))) = (.error error, e')) :
    error.isBenign = true := by
  have hvalid := Schema.checkTable_of_mem hschema
  have hheld := h.held schema.table key
  rw [List.getLast?_eq_getLast_of_ne_nil (List.ne_nil_of_mem hloaded)] at hheld
  rcases Environment.update_error_of_held hvalid hheld hupdate with
    rfl | rfl | ⟨name, hname, rfl⟩ | ⟨misfit, _, rfl⟩
  · rfl
  · rfl
  · rw [mismatch?_revision hname]
    rfl
  · rfl

end StoreError

-- What a call has found, if it has found anything.
def Visit.stored (v : Visit) : Option Record := v.loaded.bind Loaded.stored

-- A call goes its way, has looked where its record is and has made of what it found
-- what it may.
structure Visit.Behaved (v : Visit) : Prop where
  rest : Behaves v.call.About v.call.Makes v.stored v.rest
  about : ∀ loaded ∈ v.loaded, v.call.About loaded.key
  made : ∀ w ∈ v.write, ∀ record, w.reply = .ok record → v.call.Makes v.stored record

-- A write that was done, the call that asked for it, and what it was made of.
structure System.Made (s : System) (w : Write) (v : Visit) (stored : Option Record)
    (record : Record) : Prop where
  visit : s.visits[w.visit]? = some v
  write : v.write = some w
  reply : w.reply = .ok record
  table : v.call.schema.table = w.table
  about : v.call.About w.key
  makes : v.call.Makes stored record

def System.Behaved (s : System) : Prop := ∀ v ∈ s.visits, v.Behaved

section Steps

variable {s : System} {v : Visit} {i : Nat} {answers : (q : Question) → Except String q.Answer}
  {r : Request} {next : r.Reply → Interaction (Except SyncError v.call.Result)}

-- What stands under a key is a version, and every version has a revision.
theorem Chronicle.revisable {e : Environment} {writes : List Write} (h : Chronicle e writes)
    {schema : Schema} (hschema : schema ∈ Schema.all) {key : Key} {found : Option Record}
    (hheld : e.held schema.table key = .ok found) : Revisable found := by
  rintro record rfl
  refine ⟨Environment.storable_of_held hheld, ?_⟩
  rw [h.held] at hheld
  have hmem := List.mem_of_getLast? (Except.ok.inj hheld)
  obtain ⟨n, hn⟩ := List.mem_iff_getElem?.mp hmem
  obtain ⟨revision, hget, _⟩ := (h.history.lineage hschema key).revision hn
  exact ⟨revision, by simp [Record.revision?, hget, Value.asInt?]⟩

namespace Visit.Behaved

variable {rest : Interaction (Except SyncError v.call.Result)}

theorem goes (h : v.Behaved) (hrest : Behaves v.call.About v.call.Makes v.stored rest) :
    Visit.Behaved { v with rest } :=
  ⟨hrest, h.about, h.made⟩

theorem finds (hwrite : v.write = none) {table : String} {key : Key}
    {found : Option Record} (hkey : v.call.About key)
    (hrest : Behaves v.call.About v.call.Makes found rest) :
    Visit.Behaved { v with loaded := some ⟨table, key, found⟩, rest } where
  rest := hrest
  about := by
    rintro _ ⟨⟩
    exact hkey
  made := by
    intro w hw
    rw [hwrite] at hw
    cases hw

theorem writes (h : v.Behaved) {w : Write}
    (hmade : ∀ record, w.reply = .ok record → v.call.Makes v.stored record)
    (hrest : Behaves v.call.About v.call.Makes v.stored rest) :
    Visit.Behaved { v with write := some w, rest } where
  rest := hrest
  about := h.about
  made := by
    rintro _ ⟨⟩
    exact hmade

end Visit.Behaved

namespace System.Consistent

-- An exchange changes the visit that makes it and no other, so that this one is all
-- that is to be looked at.
theorem behaved_preparing (h : s.Consistent) (hv : v.Behaved) (hwrite : v.write = none)
    (hp : Prepares v.call.schema v.call.effect? (.request r next))
    (hr : Behaves v.call.About v.call.Makes v.stored (.request r next)) :
    ∀ v' ∈ (s.exchange i answers v r next).visits, v' ∈ s.visits ∨ v'.Behaved := by
  intro v' hv'
  rcases List.mem_or_eq_of_mem_set hv' with hold | rfl
  · exact .inl hold
  right
  have hschema := v.call.schema_mem
  cases hp with
  | ask =>
    cases hr with
    | ask hnext => exact hv.goes (hnext _)
  | @load key =>
    cases hr with
    | load hkey hfound hfails =>
      cases hget : s.environment.get v.call.schema.table key with
      | mk reply e =>
        simp only [Environment.serve, hget]
        cases reply with
        | error error =>
          exact hv.goes (hfails error (StoreError.isBenign_of_load h.chronicle hschema hget))
        | ok found =>
          have hrevisable := h.chronicle.revisable hschema (Environment.held_of_get hget)
          simp only [Request.loaded?, Request.write?, Option.some_or, Option.none_or]
          exact .finds hwrite hkey (hfound found hrevisable)

theorem behaved_settling (h : s.Consistent) (hv : v.Behaved) {key : Key} {stored : Option Record}
    (hloaded : v.loaded = some ⟨v.call.schema.table, key, stored⟩)
    (hseen : ∀ record ∈ stored, record ∈ versions s.writes v.call.schema.table key)
    (hs : Settles v.call.schema v.call.effect? key stored (.request r next))
    (hr : Behaves v.call.About v.call.Makes v.stored (.request r next)) :
    ∀ v' ∈ (s.exchange i answers v r next).visits, v' ∈ s.visits ∨ v'.Behaved := by
  intro v' hv'
  rcases List.mem_or_eq_of_mem_set hv' with hold | rfl
  · exact .inl hold
  right
  have hschema := v.call.schema_mem
  have hstored : v.stored = stored := by rw [Visit.stored, hloaded]; rfl
  cases hs with
  | ask =>
    cases hr with
    | ask hnext => exact hv.goes (hnext _)
  | @create fresh created unchanged hnone hfresh hcreated hunchanged =>
    subst hnone
    cases hr with
    | put hmakes hnext =>
      cases hput : s.environment.put v.call.schema.table key
          (fresh.insert Record.revisionAttribute (.int Schema.baseRevision))
          (some [v.call.schema.unique]) with
      | mk reply e =>
        obtain ⟨hfollows, _⟩ := h.chronicle.put (i := i) hschema hfresh hput rfl
        simp only [Environment.serve, hput]
        refine hv.writes ?_ (hnext reply fun error herror => ?_)
        · intro record hrecord
          cases reply with
          | error error => cases hrecord
          | ok =>
            cases hrecord
            exact hmakes
        · subst herror
          exact StoreError.isBenign_of_put hfollows rfl
  | @update original revision changes updated effect hsome hrevision hchanges hupdated heffect =>
    subst hsome
    cases hr with
    | update hmakes hnext =>
      cases hupdate : s.environment.update v.call.schema.table key changes
          (some (OrderedMap.insert ∅ Record.revisionAttribute (.int revision))) with
      | mk reply e =>
        have hmem := hseen original rfl
        obtain ⟨hfollows, _⟩ :=
          h.chronicle.update (i := i) hschema hmem hrevision hchanges hupdate rfl
        simp only [Environment.serve, hupdate]
        refine hv.writes ?_ (hnext reply fun error herror => ?_)
        · rintro record rfl
          obtain ⟨_, found, hheld, _, happly⟩ := Environment.update_eq_ok hupdate
          rw [h.chronicle.held, ← (hfollows.done record rfl).1] at hheld
          cases hheld
          rw [hstored] at hmakes ⊢
          exact hmakes original rfl record happly
        · subst herror
          exact StoreError.isBenign_of_update h.chronicle hschema hmem hupdate

theorem behaved_step (h : s.Consistent) (hb : s.Behaved) (move : Move) : (s.step move).Behaved := by
  cases move with
  | begin call =>
    intro v hv
    rcases List.mem_append.mp hv with hv | hv
    · exact hb v hv
    · rw [List.mem_singleton.mp hv]
      exact ⟨call.behaves, by simp, by simp⟩
  | advance i answers =>
    simp only [System.step]
    split
    · exact hb
    · rename_i v hhere
      split
      · exact hb
      · rename_i r next hrest
        have hv := hb v (List.mem_of_getElem? hhere)
        have hr := hv.rest
        rw [hrest] at hr
        intro v' hv'
        cases h.visits i v hhere with
        | preparing hloaded hwrite hp =>
          rw [hrest] at hp
          exact (h.behaved_preparing hv hwrite hp hr v' hv').elim (hb v') id
        | settling hloaded hwrite hseen hs =>
          rw [hrest] at hs
          exact (h.behaved_settling hv hloaded hseen hs hr v' hv').elim (hb v') id
        | settled _ _ _ _ _ _ hdone _ =>
          rw [hrest] at hdone
          cases hdone

theorem behaved_run (config : Config) (fileSize : UInt64) (capacity : Capacity)
    (moves : List Move) : (System.run config fileSize capacity moves).Behaved :=
  run_induction config fileSize capacity moves (by simp [System.Behaved, System.start])
    fun _ h hb move _ => h.behaved_step hb move

-- A call that has written has come to its end.
theorem settled_of_write (h : s.Consistent) (hv : s.visits[i]? = some v) {w : Write}
    (hwrite : v.write = some w) :
    ∃ stored result, w.table = v.call.schema.table ∧
      v.loaded = some ⟨w.table, w.key, stored⟩ ∧ w.loaded = v.loaded ∧ v.rest = .done result ∧
      v.call.Ends stored w.reply result := by
  cases h.visits i v hv with
  | preparing _ hnone _ =>
    rw [hnone] at hwrite
    cases hwrite
  | settling _ hnone _ _ =>
    rw [hnone] at hwrite
    cases hwrite
  | @settled own stored result _ _ hown hplace hloaded hsame hrest hends =>
    rw [hown, Option.some.injEq] at hwrite
    subst hwrite
    exact ⟨stored, result, hplace, hloaded, hsame, hrest, hends⟩

-- A write that was done was made by a call about that record, of the version before.
theorem made (h : s.Consistent) (hb : s.Behaved) {earlier later : List Write} {w : Write}
    {record : Record} (heq : s.writes = earlier ++ w :: later) (hreply : w.reply = .ok record) :
    ∃ v, s.Made w v (versions earlier w.table w.key).getLast? record := by
  have hmem : w ∈ s.writes := by
    rw [heq]
    exact List.mem_append_right _ (List.mem_cons_self ..)
  obtain ⟨v, hv, hwrite⟩ := h.owned w hmem
  have hbehaved := hb v (List.mem_of_getElem? hv)
  obtain ⟨stored, _, hplace, hloaded, hsame, _⟩ := h.settled_of_write hv hwrite
  obtain ⟨_, _, found, hw⟩ := h.chronicle.history.follows heq
  have hfound := hsame.symm.trans hw.loaded
  rw [hloaded] at hfound
  cases hfound
  have hmakes := hbehaved.made w hwrite record hreply
  rw [Visit.stored, hloaded, Option.bind_some, (hw.done record hreply).1] at hmakes
  exact ⟨v, hv, hwrite, hreply, hplace.symm, hbehaved.about _ hloaded, hmakes⟩

-- By induction over the writes: what every call makes of a version that has it, every
-- version has.
theorem forall_versions (h : s.Consistent) (hb : s.Behaved) {schema : Schema}
    (hschema : schema ∈ Schema.all) (key : Key) {P : Record → Prop}
    (hmakes : ∀ w v stored record, w.key = key → v.call.schema = schema →
      s.Made w v stored record → (∀ original ∈ stored, P original) → P record) :
    ∀ record ∈ versions s.writes schema.table key, P record := by
  suffices hall : ∀ earlier later, s.writes = earlier ++ later →
      ∀ record ∈ versions earlier schema.table key, P record from
    hall s.writes [] (List.append_nil _).symm
  intro earlier
  induction earlier using List.reverseRecOn with
  | nil => simp [versions]
  | append_singleton earlier w ih =>
    intro later heq record hrecord
    rw [List.append_assoc, List.singleton_append] at heq
    rcases mem_versions_append_singleton hrecord with hold | ⟨htable, rfl, hreply⟩
    · exact ih _ heq record hold
    · obtain ⟨v, hmade⟩ := h.made hb heq hreply
      have hkind := Schema.eq_of_table_eq v.call.schema_mem hschema (hmade.table.trans htable)
      rw [htable] at hmade
      refine hmakes w v _ record rfl hkind hmade fun original horiginal => ?_
      exact ih _ heq original (List.mem_of_getLast? horiginal)

end System.Consistent

end Steps

end LightningRecords

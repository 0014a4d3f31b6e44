import LightningRecords.Proofs.Clients.Invariant

namespace LightningRecords

variable {s : System} {v : Visit} {i : Nat} {writes earlier : List Write} {w w' : Write}
  {record record' : Record}

theorem mem_versions (hmem : w ∈ writes) (hreply : w.reply = .ok record) :
    record ∈ versions writes w.table w.key := by
  apply List.mem_filterMap.mpr
  exact ⟨w, hmem, by simp [hreply, Except.toOption]⟩

-- A first write that was done came when nothing had been written.
theorem Write.Follows.versions_eq_nil {schema : Schema} {stored : Option Record}
    (hw : w.Follows schema stored earlier) (hloaded : w.loaded = some ⟨w.table, w.key, none⟩)
    (hreply : w.reply = .ok record) : versions earlier w.table w.key = [] := by
  have hstored := (hw.done record hreply).1
  rw [hw.loaded] at hloaded
  cases hloaded
  exact List.getLast?_eq_none_iff.mp hstored.symm

theorem History.first_unique (h : History writes) (hw : w ∈ writes) (hw' : w' ∈ writes)
    (htable : w.table = w'.table) (hkey : w.key = w'.key)
    (hloaded : w.loaded = some ⟨w.table, w.key, none⟩)
    (hloaded' : w'.loaded = some ⟨w'.table, w'.key, none⟩)
    (hreply : w.reply = .ok record) (hreply' : w'.reply = .ok record') : w = w' := by
  induction h with
  | nil => cases hw
  | @append earlier last _ _ _ _ hlast ih =>
    rcases List.mem_append.mp hw with hin | hin <;> rcases List.mem_append.mp hw' with hin' | hin'
    · exact ih hin hin'
    · cases List.mem_singleton.mp hin'
      have hmem := mem_versions hin hreply
      rw [htable, hkey, hlast.versions_eq_nil hloaded' hreply'] at hmem
      cases hmem
    · cases List.mem_singleton.mp hin
      have hmem := mem_versions hin' hreply'
      rw [← htable, ← hkey, hlast.versions_eq_nil hloaded hreply] at hmem
      cases hmem
    · rw [List.mem_singleton.mp hin, List.mem_singleton.mp hin']

theorem History.head_of_first (h : History writes) (hmem : w ∈ writes)
    (hloaded : w.loaded = some ⟨w.table, w.key, none⟩) (hreply : w.reply = .ok record) :
    (versions writes w.table w.key).head? = some record := by
  obtain ⟨earlier, later, rfl⟩ := List.append_of_mem hmem
  obtain ⟨_, _, _, hw⟩ := h.follows rfl
  have hnone := hw.versions_eq_nil hloaded hreply
  rw [versions] at hnone ⊢
  rw [List.filterMap_append, hnone]
  simp [hreply, Except.toOption]

theorem History.follows_of_mem {stored : Option Record} (h : History writes) (hmem : w ∈ writes)
    (hloaded : w.loaded = some ⟨w.table, w.key, stored⟩) :
    ∃ schema ∈ Schema.all, ∃ earlier, w.Follows schema stored earlier := by
  obtain ⟨earlier, later, heq⟩ := List.append_of_mem hmem
  obtain ⟨schema, hschema, found, hw⟩ := h.follows heq
  have hsame := hw.loaded
  rw [hloaded] at hsame
  cases hsame
  exact ⟨schema, hschema, earlier, hw⟩

theorem History.exists_lineage (h : History writes) {table : String} {key : Key}
    (hmem : record ∈ versions writes table key) :
    ∃ schema ∈ Schema.all, Lineage schema (versions writes table key) := by
  obtain ⟨w, hw, hplace⟩ := List.mem_filterMap.mp hmem
  split at hplace
  · rename_i hhere
    obtain ⟨earlier, later, heq⟩ := List.append_of_mem hw
    obtain ⟨schema, hschema, _, hfollows⟩ := h.follows heq
    rw [← hhere.1, hfollows.table]
    exact ⟨schema, hschema, h.lineage hschema key⟩
  · cases hplace

-- A call that tells of an effect has written.
theorem System.Consistent.write_of_effect (h : s.Consistent) (hv : s.visits[i]? = some v)
    {a : v.call.Result} {effect : Effect} (hrest : v.rest = .done (.ok a))
    (heffect : v.call.effect? a = some effect) :
    ∃ w ∈ s.writes, ∃ stored record, w.visit = i ∧ v.write = some w ∧
      w.table = v.call.schema.table ∧ v.loaded = some ⟨w.table, w.key, stored⟩ ∧
      w.loaded = v.loaded ∧ w.reply = .ok record ∧
      v.call.Ends stored w.reply (.ok a) := by
  cases h.visits i v hv with
  | preparing _ _ hp =>
    rw [hrest] at hp
    cases hp
  | settling _ _ _ hs =>
    rw [hrest] at hs
    cases hs with
    | idle hidle =>
      rw [hidle] at heffect
      cases heffect
  | @settled w stored _ hmem hvisit hwrite hplace hloaded hsame hdone hends =>
    rw [hrest] at hdone
    cases hdone
    cases hreply : w.reply with
    | ok record =>
      exact ⟨w, hmem, stored, record, hvisit, hwrite, hplace, hloaded, hsame, hreply, hends⟩
    | error error =>
      have hrefused := hends.refused error hreply
      split at hrefused
      · obtain ⟨_, hresult, hnone⟩ := hrefused
        cases hresult
        rw [hnone] at heffect
        cases heffect
      · cases hrefused

-- Under every key the revisions count the writes. Each was made over the record
-- that its call had loaded, and no other had come between.
structure System.NoLostUpdate (s : System) : Prop where
  revisions : ∀ table key (n : Nat) (record : Record),
    (versions s.writes table key)[n]? = some record → ∃ revision,
      record.revision? = some revision ∧ revision.toInt = n
  seen : ∀ earlier w later record, s.writes = earlier ++ w :: later → w.reply = .ok record →
    w.before = .ok (versions earlier w.table w.key).getLast? ∧
      w.loaded = some ⟨w.table, w.key, (versions earlier w.table w.key).getLast?⟩ ∧
      w.after = .ok (some record)
  original : ∀ (i : Nat) v a previous updates original, s.visits[i]? = some v →
    v.rest = .done (.ok a) → v.call.effect? a = some (.updated previous updates original) →
    ∃ w ∈ s.writes, w.visit = i ∧ v.write = some w ∧ w.before = .ok (some original) ∧
      ∃ record, w.reply = .ok record
  held : ∀ table key,
    s.environment.held table key = .ok (versions s.writes table key).getLast?

theorem History.revisions (h : History writes) {table : String} {key : Key} {n : Nat}
    (hn : (versions writes table key)[n]? = some record) :
    ∃ revision, record.revision? = some revision ∧ revision.toInt = n := by
  obtain ⟨schema, _, hlineage⟩ := h.exists_lineage (List.mem_of_getElem? hn)
  obtain ⟨revision, hget, hcount⟩ := hlineage.revision hn
  exact ⟨revision, by simp [Record.revision?, hget, Value.asInt?], hcount⟩

-- What a call tells to have updated stood there when it wrote.
theorem System.Consistent.original (h : s.Consistent) (hv : s.visits[i]? = some v)
    {a : v.call.Result} {previous updates original : Record} (hrest : v.rest = .done (.ok a))
    (heffect : v.call.effect? a = some (.updated previous updates original)) :
    ∃ w ∈ s.writes, w.visit = i ∧ v.write = some w ∧ w.before = .ok (some original) ∧
      ∃ record, w.reply = .ok record := by
  obtain ⟨w, hmem, stored, record, hvisit, hwrite, _, hloaded, hsame, hreply, hends⟩ :=
    h.write_of_effect hv hrest heffect
  refine ⟨w, hmem, hvisit, hwrite, ?_, record, hreply⟩
  obtain ⟨_, _, earlier, hw⟩ := h.chronicle.history.follows_of_mem hmem (hsame.trans hloaded)
  rw [hw.before, ← (hw.done record hreply).1]
  cases stored with
  | none =>
    obtain ⟨_, fresh, hresult, hcreated, _⟩ := hends.created rfl record hreply
    cases hresult
    rw [heffect] at hcreated
    cases hcreated
  | some found =>
    obtain ⟨_, effect, hresult, hupdated, hrevises⟩ := hends.updated found rfl record hreply
    cases hresult
    rw [heffect] at hupdated
    cases hupdated
    cases hrevises
    rfl

theorem no_lost_update (config : Config) (fileSize : UInt64) (capacity : Capacity)
    (moves : List Move) : (System.run config fileSize capacity moves).NoLostUpdate := by
  have h := System.Consistent.run config fileSize capacity moves
  have hhistory := h.chronicle.history
  refine ⟨?_, ?_, ?_, h.chronicle.held⟩
  · intro table key n record hn
    exact hhistory.revisions hn
  · intro earlier w later record heq hreply
    obtain ⟨_, _, stored, hw⟩ := hhistory.follows heq
    obtain ⟨rfl, hafter, _⟩ := hw.done record hreply
    exact ⟨hw.before, hw.loaded, hafter⟩
  · intro i v a previous updates original hv hrest heffect
    exact h.original hv hrest heffect

-- A call about the record under a key has come back and tells to have created it.
def System.Created (s : System) (i : Nat) (table : String) (key : Key) (record : Record) : Prop :=
  ∃ (v : Visit) (a : v.call.Result) (stored : Option Record), s.visits[i]? = some v ∧
    v.loaded = some ⟨table, key, stored⟩ ∧ v.rest = .done (.ok a) ∧
    v.call.effect? a = some (.created record)

-- What becomes of an attempt to create a record. It succeeds only where nothing
-- stands, and fails there only for want of room. Where a record stands by now, it
-- stays, and the call is told of it.
inductive Visit.Attempts (v : Visit) (w : Write) : Prop where
  | first {a : v.call.Result} {record : Record} (hbefore : w.before = .ok none)
      (hafter : w.after = .ok
        (some (record.insert Record.revisionAttribute (.int Schema.baseRevision))))
      (hrest : v.rest = .done (.ok a)) (heffect : v.call.effect? a = some (.created record))
  | late {found : Record} {error : SyncError} (hbefore : w.before = .ok (some found))
      (hrefused : w.reply.isOk = false) (hafter : w.after = w.before)
      (herror : error =
        .store (.conflict w.table (.freshViolation v.call.schema.unique) found))
      (hretryable : error.isRetryable = true)
      (hrest : if v.call.schema.isImmutable then
        ∃ a, v.rest = .done (.ok a) ∧ v.call.effect? a = none else v.rest = .done (.error error))
  | cramped {error : StoreError} (hbefore : w.before = .ok none)
      (hrefused : w.reply.isOk = false) (hafter : w.after = w.before)
      (herror : error = .engine "create table" .tablesFull ∨
        ∃ size, error = .capacityExhausted "put" size)
      (hrest : v.rest = .done (.error (.store error)))

-- A record is created once, and stays what it was created as but for what its
-- kind varies in. Who comes late has asked for no other write, and a write that is
-- refused is none of those that stand.
structure System.OneCreator (s : System) : Prop where
  told : ∀ (i : Nat) v a record, s.visits[i]? = some v → v.rest = .done (.ok a) →
    v.call.effect? a = some (.created record) →
      ∃ key, s.Created i v.call.schema.table key record
  single : ∀ i j table key record other, s.Created i table key record →
    s.Created j table key other → i = j
  attempts : ∀ (i : Nat) v w key, s.visits[i]? = some v → v.write = some w →
    v.loaded = some ⟨v.call.schema.table, key, none⟩ →
      w.table = v.call.schema.table ∧ w.key = key ∧ v.Attempts w ∧
        ∀ w' ∈ s.writes, w'.visit = i → w' = w
  held : ∀ table key,
    s.environment.held table key = .ok (versions s.writes table key).getLast?
  kept : ∀ i, ∀ schema ∈ Schema.all, ∀ key record, s.Created i schema.table key record →
    ∃ current, s.environment.held schema.table key = .ok (some current) ∧
      ∀ name, name ≠ Record.revisionAttribute → ¬schema.Varies name →
        current.get? name = record.get? name

section Attempts

variable {result : Except SyncError v.call.Result} {error : StoreError}
  (hw : w.Follows v.call.schema none earlier) (hends : v.call.Ends none w.reply result)
  (hrest : v.rest = .done result)

include hw hends hrest

theorem Visit.Attempts.of_ok (hreply : w.reply = .ok record) : v.Attempts w := by
  obtain ⟨hnone, hafter, _⟩ := hw.done record hreply
  obtain ⟨a, fresh, rfl, heffect, rfl⟩ := hends.created rfl record hreply
  have hbefore := hw.before
  rw [← hnone] at hbefore
  exact .first hbefore hafter hrest heffect

theorem Visit.Attempts.of_taken {found : Record} (hreply : w.reply = .error error)
    (hlast : (versions earlier w.table w.key).getLast? = some found) : v.Attempts w := by
  have hbefore := hw.before
  rw [hlast] at hbefore
  have hrefused := hends.refused error hreply
  have htaken := hw.taken rfl found hlast
  rw [hreply] at htaken
  cases htaken
  refine .late hbefore (congrArg Except.isOk hreply) (hw.refused _ hreply) rfl rfl ?_
  split
  · rename_i himmutable
    rw [if_pos ⟨rfl, himmutable, rfl⟩] at hrefused
    obtain ⟨a, rfl, hnone⟩ := hrefused
    exact ⟨a, hrest, hnone⟩
  · rename_i hmutable
    rw [if_neg fun hyields => hmutable hyields.2.1] at hrefused
    rw [hrest, hrefused]

theorem Visit.Attempts.of_vacant (hreply : w.reply = .error error)
    (hlast : (versions earlier w.table w.key).getLast? = none) : v.Attempts w := by
  have hbefore := hw.before
  rw [hlast] at hbefore
  have hrefused := hends.refused error hreply
  have hcause := hw.vacant rfl hlast error hreply
  have hfresh : error.isFreshViolation ≠ true := by
    rcases hcause with rfl | ⟨size, rfl⟩ <;> exact Bool.false_ne_true
  rw [if_neg fun hyields => hfresh hyields.2.2] at hrefused
  rw [hrefused] at hrest
  exact .cramped hbefore (congrArg Except.isOk hreply) (hw.refused _ hreply) hcause hrest

end Attempts

theorem System.Consistent.attempts (h : s.Consistent) {key : Key} (hv : s.visits[i]? = some v)
    (hwrite : v.write = some w) (hloaded : v.loaded = some ⟨v.call.schema.table, key, none⟩) :
    w.table = v.call.schema.table ∧ w.key = key ∧ v.Attempts w := by
  cases h.visits i v hv with
  | preparing _ hnone _ =>
    rw [hnone] at hwrite
    cases hwrite
  | settling _ hnone _ _ =>
    rw [hnone] at hwrite
    cases hwrite
  | @settled own stored result hmem _ hown hplace hfound hsame hrest hends =>
    rw [hown, Option.some.injEq] at hwrite
    subst hwrite
    rw [hloaded, Option.some.injEq, Loaded.mk.injEq] at hfound
    obtain ⟨htable, rfl, rfl⟩ := hfound
    rw [htable] at hloaded
    obtain ⟨schema, hschema, earlier, hw⟩ :=
      h.chronicle.history.follows_of_mem hmem (hsame.trans hloaded)
    have hkind := Schema.eq_of_table_eq hschema v.call.schema_mem (hw.table.symm.trans hplace)
    subst hkind
    refine ⟨hplace, rfl, ?_⟩
    cases hreply : own.reply with
    | ok record => exact .of_ok hw hends hrest hreply
    | error error =>
      cases hlast : (versions earlier own.table own.key).getLast? with
      | some found => exact .of_taken hw hends hrest hreply hlast
      | none => exact .of_vacant hw hends hrest hreply hlast

theorem System.Consistent.created_of_effect (h : s.Consistent) (hv : s.visits[i]? = some v)
    {a : v.call.Result} (hrest : v.rest = .done (.ok a))
    (heffect : v.call.effect? a = some (.created record)) :
    ∃ key, s.Created i v.call.schema.table key record := by
  obtain ⟨w, _, stored, _, _, _, hplace, hloaded, _⟩ := h.write_of_effect hv hrest heffect
  rw [hplace] at hloaded
  exact ⟨w.key, v, a, stored, hv, hloaded, hrest, heffect⟩

-- It had found nothing, and made the first write.
theorem System.Consistent.first_of_created (h : s.Consistent) {table : String} {key : Key}
    (hcreated : s.Created i table key record) :
    ∃ w ∈ s.writes, w.visit = i ∧ w.table = table ∧ w.key = key ∧
      w.loaded = some ⟨w.table, w.key, none⟩ ∧
      w.reply = .ok (record.insert Record.revisionAttribute (.int Schema.baseRevision)) := by
  obtain ⟨v, a, stored, hv, hloaded, hrest, heffect⟩ := hcreated
  obtain ⟨w, hmem, _, after, hvisit, _, _, hfound, hsame, hreply, hends⟩ :=
    h.write_of_effect hv hrest heffect
  rw [hloaded] at hfound
  cases hfound
  cases stored with
  | none =>
    obtain ⟨_, fresh, hresult, hfresh, hafter⟩ := hends.created rfl after hreply
    cases hresult
    rw [heffect] at hfresh
    cases hfresh
    exact ⟨w, hmem, hvisit, rfl, rfl, hsame.trans hloaded, hafter ▸ hreply⟩
  | some original =>
    obtain ⟨_, effect, hresult, hupdated, hrevises⟩ := hends.updated original rfl after hreply
    cases hresult
    rw [heffect] at hupdated
    cases hupdated
    exact hrevises.elim

theorem System.Consistent.created_single (h : s.Consistent) {j : Nat} {table : String} {key : Key}
    {other : Record} (hi : s.Created i table key record) (hj : s.Created j table key other) :
    i = j := by
  obtain ⟨w, hmem, hvisit, htable, hkey, hloaded, hreply⟩ := h.first_of_created hi
  obtain ⟨w', hmem', hvisit', htable', hkey', hloaded', hreply'⟩ := h.first_of_created hj
  have hsame := h.chronicle.history.first_unique hmem hmem' (htable.trans htable'.symm)
    (hkey.trans hkey'.symm) hloaded hloaded' hreply hreply'
  rw [← hvisit, ← hvisit', hsame]

theorem System.Consistent.write_single (h : s.Consistent) (hv : s.visits[i]? = some v)
    (hwrite : v.write = some w) (hmem : w' ∈ s.writes) (hvisit : w'.visit = i) : w' = w := by
  obtain ⟨own, hown, hwrite'⟩ := h.owned w' hmem
  rw [hvisit, hv] at hown
  cases hown
  rw [hwrite] at hwrite'
  exact (Option.some.inj hwrite').symm

theorem System.Consistent.created_kept (h : s.Consistent) {schema : Schema}
    (hschema : schema ∈ Schema.all) {key : Key} (hcreated : s.Created i schema.table key record) :
    ∃ current, s.environment.held schema.table key = .ok (some current) ∧
      ∀ name, name ≠ Record.revisionAttribute → ¬schema.Varies name →
        current.get? name = record.get? name := by
  obtain ⟨w, hmem, _, htable, rfl, hloaded, hreply⟩ := h.first_of_created hcreated
  have hhead := h.chronicle.history.head_of_first hmem hloaded hreply
  rw [htable] at hhead
  have hlineage := h.chronicle.history.lineage hschema w.key
  cases hlast : (versions s.writes schema.table w.key).getLast? with
  | none =>
    rw [List.getLast?_eq_none_iff.mp hlast] at hhead
    cases hhead
  | some current =>
    refine ⟨current, by rw [h.chronicle.held, hlast], fun name hname hvaries => ?_⟩
    rw [hlineage.kept hhead (List.mem_of_getLast? hlast) hname hvaries,
      OrderedMap.get?_insert_of_ne _ _ hname]

theorem one_creator (config : Config) (fileSize : UInt64) (capacity : Capacity)
    (moves : List Move) : (System.run config fileSize capacity moves).OneCreator := by
  have h := System.Consistent.run config fileSize capacity moves
  refine ⟨?_, ?_, ?_, h.chronicle.held, ?_⟩
  · intro i v a record hv hrest heffect
    exact h.created_of_effect hv hrest heffect
  · intro i j table key record other hi hj
    exact h.created_single hi hj
  · intro i v w key hv hwrite hloaded
    obtain ⟨htable, hkey, hattempts⟩ := h.attempts hv hwrite hloaded
    refine ⟨htable, hkey, hattempts, ?_⟩
    intro w' hmem hvisit
    exact h.write_single hv hwrite hmem hvisit
  · intro i schema hschema key record hcreated
    exact h.created_kept hschema hcreated

-- Two calls have both found nothing. The one that is slower to write does not.
example :
    let nothing : (q : Question) → Except String q.Answer := fun _ => .error ""
    let s := System.run Config.minimal 0 .byWeight
      [.begin (.block "aa" 1), .begin (.block "aa" 2), .advance 1 nothing, .advance 0 nothing,
        .advance 0 nothing, .advance 1 nothing]
    s.writes.map (fun w => (w.visit, w.reply.isOk)) = [(0, true), (1, false)] := by
  decide +kernel

end LightningRecords

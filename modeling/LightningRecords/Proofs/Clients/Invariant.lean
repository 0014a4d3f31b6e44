import LightningRecords.Proofs.Clients.Chronicle

namespace LightningRecords

-- What a call that had found `stored` makes of the reply to its write.
structure Call.Ends (call : Call) (stored : Option Record) (reply : Except StoreError Record)
    (result : Except SyncError call.Result) : Prop where
  created : stored = none → ∀ record, reply = .ok record → ∃ a fresh, result = .ok a ∧
    call.effect? a = some (.created fresh) ∧
    record = fresh.insert Record.revisionAttribute (.int Schema.baseRevision)
  updated : ∀ original, stored = some original → ∀ record, reply = .ok record →
    ∃ a effect, result = .ok a ∧ call.effect? a = some effect ∧ effect.Revises original
  refused : ∀ error, reply = .error error →
    if stored = none ∧ call.schema.isImmutable = true ∧ error.isFreshViolation = true then
      ∃ a, result = .ok a ∧ call.effect? a = none
    else result = .error (.store error)

theorem Call.ends_creation {call : Call} {fresh : Record} {created unchanged : call.Result}
    (hcreated : call.effect? created = some (.created fresh))
    (hunchanged : call.effect? unchanged = none) (reply : Except StoreError Unit) :
    call.Ends none
      (reply.map fun _ => fresh.insert Record.revisionAttribute (.int Schema.baseRevision))
      (Procedure.settleCreation call.schema created unchanged reply) where
  created := by
    intro _ record hrecord
    cases reply with
    | error error => cases hrecord
    | ok =>
      cases hrecord
      exact ⟨created, fresh, rfl, hcreated, rfl⟩
  updated := by simp
  refused := by
    intro error herror
    cases reply with
    | ok => cases herror
    | error cause =>
      cases herror
      simp only [Procedure.settleCreation, Bool.and_eq_true, true_and]
      split
      · exact ⟨unchanged, rfl, hunchanged⟩
      · rfl

theorem Call.ends_update {call : Call} {original : Record} {updated : call.Result} {effect : Effect}
    (hupdated : call.effect? updated = some effect) (heffect : effect.Revises original)
    (reply : Except StoreError Record) :
    call.Ends (some original) reply (Procedure.settleUpdate updated reply) where
  created := by simp
  updated := by
    rintro _ ⟨⟩ record rfl
    exact ⟨updated, effect, rfl, hupdated, heffect⟩
  refused := by
    rintro error rfl
    simp [Procedure.settleUpdate]

-- How far a call can be: it has loaded nothing yet, or loaded and not written, or
-- written and come to its end.
inductive Visit.Sound (i : Nat) (writes : List Write) (v : Visit) : Prop where
  | preparing (hloaded : v.loaded = none) (hwrite : v.write = none)
      (h : Prepares v.call.schema v.call.effect? v.rest)
  | settling {key : Key} {stored : Option Record}
      (hloaded : v.loaded = some ⟨v.call.schema.table, key, stored⟩) (hwrite : v.write = none)
      (hseen : ∀ record ∈ stored, record ∈ versions writes v.call.schema.table key)
      (h : Settles v.call.schema v.call.effect? key stored v.rest)
  | settled {w : Write} {stored : Option Record} {result : Except SyncError v.call.Result}
      (hmem : w ∈ writes) (hvisit : w.visit = i) (hwrite : v.write = some w)
      (hplace : w.table = v.call.schema.table)
      (hloaded : v.loaded = some ⟨w.table, w.key, stored⟩) (hsame : w.loaded = v.loaded)
      (hrest : v.rest = .done result) (hends : v.call.Ends stored w.reply result)

-- Every write is fit to follow the earlier ones and is the only one of its call, and
-- every call goes its way.
structure System.Consistent (s : System) : Prop where
  chronicle : Chronicle s.environment s.writes
  visits : ∀ i (v : Visit), s.visits[i]? = some v → v.Sound i s.writes
  owned : ∀ w ∈ s.writes, ∃ v, s.visits[w.visit]? = some v ∧ v.write = some w

section Steps

variable {s : System} {v : Visit} {i : Nat} {writes : List Write}

theorem mem_versions_append {record : Record} {table : String} {key : Key} (later : List Write)
    (h : record ∈ versions writes table key) : record ∈ versions (writes ++ later) table key := by
  rw [versions, List.filterMap_append]
  exact List.mem_append_left _ h

theorem mem_versions_append_singleton {w : Write} {record : Record} {table : String} {key : Key}
    (h : record ∈ versions (writes ++ [w]) table key) :
    record ∈ versions writes table key ∨
      w.table = table ∧ w.key = key ∧ w.reply = .ok record := by
  rw [versions_append] at h
  rcases List.mem_append.mp h with hold | hnew
  · exact .inl hold
  · split at hnew
    · rename_i hplace
      cases hreply : w.reply with
      | error error =>
        rw [hreply] at hnew
        cases hnew
      | ok written =>
        rw [hreply] at hnew
        cases List.mem_singleton.mp hnew
        exact .inr ⟨hplace.1, hplace.2, rfl⟩
    · cases hnew

theorem Visit.Sound.append (h : v.Sound i writes) (later : List Write) :
    v.Sound i (writes ++ later) := by
  cases h with
  | preparing hloaded hwrite h => exact .preparing hloaded hwrite h
  | settling hloaded hwrite hseen h =>
    exact .settling hloaded hwrite (fun record hr => mem_versions_append later (hseen record hr)) h
  | settled hmem hvisit hwrite hplace hloaded hsame hrest hends =>
    exact .settled (List.mem_append_left _ hmem) hvisit hwrite hplace hloaded hsame hrest hends

namespace System.Consistent

theorem start (config : Config) (fileSize : UInt64) (capacity : Capacity) :
    (System.start config fileSize capacity).Consistent where
  chronicle := .start config fileSize capacity
  visits := by simp [System.start]
  owned := by simp [System.start]

theorem begin (h : s.Consistent) (call : Call) : (s.step (.begin call)).Consistent where
  chronicle := h.chronicle
  visits := by
    intro i v hv
    simp only [System.step, List.getElem?_append] at hv
    split at hv
    · exact h.visits i v hv
    · have hzero : i - s.visits.length = 0 := by
        by_contra hpositive
        rw [List.getElem?_eq_none (by simp; omega)] at hv
        cases hv
      rw [hzero] at hv
      cases hv
      exact .preparing rfl rfl call.prepares
  owned := by
    intro w hw
    obtain ⟨v, hv, hwrite⟩ := h.owned w hw
    have hbefore : w.visit < s.visits.length := (List.getElem?_eq_some_iff.mp hv).1
    exact ⟨v, by rw [System.step, List.getElem?_append_left hbefore, hv], hwrite⟩

variable {v' : Visit}

-- One call that has not written moves on, and all others stay where they are.
theorem set (h : s.Consistent) (hhere : s.visits[i]? = some v) (hunwritten : v.write = none)
    {e : Environment} {more : List Write} (hchronicle : Chronicle e (s.writes ++ more))
    (hv : v'.Sound i (s.writes ++ more)) (hmore : ∀ w ∈ more, w.visit = i ∧ v'.write = some w) :
    System.Consistent ⟨e, s.visits.set i v', s.writes ++ more⟩ where
  chronicle := hchronicle
  visits := by
    intro j other hother
    rw [List.getElem?_set] at hother
    split at hother
    · rename_i heq
      split at hother
      · cases hother
        rw [← heq]
        exact hv
      · cases hother
    · exact (h.visits j other hother).append more
  owned := by
    intro w hw
    have hbound : i < s.visits.length := (List.getElem?_eq_some_iff.mp hhere).1
    rcases List.mem_append.mp hw with hw | hw
    · obtain ⟨other, hother, hwrite⟩ := h.owned w hw
      have hne : i ≠ w.visit := by
        rintro rfl
        rw [hhere] at hother
        cases hother
        rw [hunwritten] at hwrite
        cases hwrite
      exact ⟨other, by rw [List.getElem?_set_ne hne, hother], hwrite⟩
    · obtain ⟨rfl, hwrite⟩ := hmore w hw
      exact ⟨v', List.getElem?_set_self hbound, hwrite⟩

theorem set_quiet (h : s.Consistent) (hhere : s.visits[i]? = some v) (hunwritten : v.write = none)
    {e : Environment} (hkeeps : s.environment.Keeps e) (hv : v'.Sound i s.writes) :
    System.Consistent ⟨e, s.visits.set i v', s.writes⟩ := by
  have hchronicle := h.chronicle.keeps hkeeps
  rw [← List.append_nil s.writes] at hchronicle hv ⊢
  exact h.set hhere hunwritten hchronicle hv (by simp)

variable {answers : (q : Question) → Except String q.Answer} {r : Request}
  {next : r.Reply → Interaction (Except SyncError v.call.Result)}

theorem exchange_preparing (h : s.Consistent) (hhere : s.visits[i]? = some v)
    (hloaded : v.loaded = none) (hwrite : v.write = none)
    (hp : Prepares v.call.schema v.call.effect? (.request r next)) :
    (s.exchange i answers v r next).Consistent := by
  cases hp with
  | @ask question _ hnext =>
    simp only [System.exchange, Request.write?, Option.toList_none, List.append_nil]
    exact h.set_quiet hhere hwrite (.refl _) (.preparing hloaded hwrite (hnext _))
  | @load key _ hok herror =>
    cases hget : s.environment.get v.call.schema.table key with
    | mk reply e =>
      have hkeeps := Environment.get_keeps hget
      simp only [System.exchange, Environment.serve, hget, Request.write?, Option.toList_none,
        List.append_nil]
      cases reply with
      | error error =>
        refine h.set_quiet hhere hwrite hkeeps (.preparing hloaded hwrite ?_)
        rw [herror error]
        exact .fail (.store error)
      | ok stored =>
        have hheld := Environment.held_of_get hget
        have hstorable : ∀ record ∈ stored, record.Storable := by
          rintro record rfl
          exact Environment.storable_of_held hheld
        rw [h.chronicle.held] at hheld
        have hseen : ∀ record ∈ stored,
            record ∈ versions s.writes v.call.schema.table key := by
          rintro record rfl
          exact List.mem_of_getLast? (Except.ok.inj hheld)
        exact h.set_quiet hhere hwrite hkeeps (.settling rfl hwrite hseen (hok stored hstorable))

theorem exchange_settling (h : s.Consistent) (hhere : s.visits[i]? = some v) {key : Key}
    {stored : Option Record} (hloaded : v.loaded = some ⟨v.call.schema.table, key, stored⟩)
    (hwrite : v.write = none)
    (hseen : ∀ record ∈ stored, record ∈ versions s.writes v.call.schema.table key)
    (hs : Settles v.call.schema v.call.effect? key stored (.request r next)) :
    (s.exchange i answers v r next).Consistent := by
  have hschema := v.call.schema_mem
  cases hs with
  | @ask question _ hnext =>
    simp only [System.exchange, Request.write?, Option.toList_none, List.append_nil]
    exact h.set_quiet hhere hwrite (.refl _) (.settling hloaded hwrite hseen (hnext _))
  | @create fresh created unchanged hstored hfresh hcreated hunchanged =>
    subst hstored
    cases hput : s.environment.put v.call.schema.table key
        (fresh.insert Record.revisionAttribute (.int Schema.baseRevision))
        (some [v.call.schema.unique]) with
    | mk reply e =>
      obtain ⟨hfollows, hchronicle⟩ := h.chronicle.put (i := i) hschema hfresh hput rfl
      simp only [System.exchange, Environment.serve, hput, Request.write?, hloaded]
      have hends := Call.ends_creation hcreated hunchanged reply
      exact h.set hhere hwrite hchronicle (.settled (by simp) rfl rfl rfl rfl rfl rfl hends)
        (by simp)
  | @update original revision changes updated effect hstored hrevision hchanges hupdated heffect =>
    subst hstored
    cases hupdate : s.environment.update v.call.schema.table key changes
        (some (OrderedMap.insert ∅ Record.revisionAttribute (.int revision))) with
    | mk reply e =>
      have hmem := hseen original rfl
      obtain ⟨hfollows, hchronicle⟩ :=
        h.chronicle.update (i := i) hschema hmem hrevision hchanges hupdate rfl
      simp only [System.exchange, Environment.serve, hupdate, Request.write?, hloaded]
      have hends := Call.ends_update hupdated heffect reply
      exact h.set hhere hwrite hchronicle (.settled (by simp) rfl rfl rfl rfl rfl rfl hends)
        (by simp)

theorem step (h : s.Consistent) (move : Move) : (s.step move).Consistent := by
  cases move with
  | begin call => exact h.begin call
  | advance i answers =>
    simp only [System.step]
    split
    · exact h
    · rename_i v hv
      split
      · exact h
      · rename_i r next hrest
        cases h.visits i v hv with
        | preparing hloaded hwrite hp =>
          rw [hrest] at hp
          exact h.exchange_preparing hv hloaded hwrite hp
        | settling hloaded hwrite hseen hs =>
          rw [hrest] at hs
          exact h.exchange_settling hv hloaded hwrite hseen hs
        | settled _ _ _ _ _ _ hdone _ =>
          rw [hrest] at hdone
          cases hdone

theorem run (config : Config) (fileSize : UInt64) (capacity : Capacity) (moves : List Move) :
    (System.run config fileSize capacity moves).Consistent :=
  List.foldlRecOn moves System.step (start config fileSize capacity) fun _ h move _ => h.step move

-- What holds at first, and is kept by every move out of a consistent state, holds of every run.
theorem run_induction {P : System → Prop} (config : Config) (fileSize : UInt64)
    (capacity : Capacity) (moves : List Move) (hstart : P (System.start config fileSize capacity))
    (hstep : ∀ s : System, s.Consistent → P s → ∀ move ∈ moves, P (s.step move)) :
    P (System.run config fileSize capacity moves) := by
  have hboth : (System.run config fileSize capacity moves).Consistent ∧
      P (System.run config fileSize capacity moves) :=
    List.foldlRecOn (motive := fun s => s.Consistent ∧ P s) moves System.step
      ⟨start config fileSize capacity, hstart⟩
      fun s hs move hmove => ⟨hs.1.step move, hstep s hs.1 hs.2 move hmove⟩
  exact hboth.2

-- What an exchange writes is in its call's table. It is what was put there, or made of the last
-- version.
theorem writes_exchange (h : s.Consistent) (hhere : s.visits[i]? = some v)
    (hrest : v.rest = .request r next) :
    (s.exchange i answers v r next).writes = s.writes ∨
      ∃ w, (s.exchange i answers v r next).writes = s.writes ++ [w] ∧
        w.table = v.call.schema.table ∧ ∀ record, w.reply = .ok record →
          (∃ fresh, r = .put w.table w.key record fresh) ∨
            ∃ changes expected last, r = .update w.table w.key changes expected ∧
              (versions s.writes w.table w.key).getLast? = some last ∧
              changes.apply last = .ok record := by
  cases h.visits i v hhere with
  | preparing _ _ hp =>
    rw [hrest] at hp
    cases hp <;>
    · left
      simp only [System.exchange, Request.write?, Option.toList_none, List.append_nil]
  | settling _ _ _ hs =>
    rw [hrest] at hs
    cases hs with
    | ask =>
      left
      simp only [System.exchange, Request.write?, Option.toList_none, List.append_nil]
    | create =>
      refine .inr ⟨_, rfl, rfl, fun record hreply => ?_⟩
      obtain rfl := eq_of_map_const hreply
      exact .inl ⟨_, rfl⟩
    | update =>
      refine .inr ⟨_, rfl, rfl, fun record hreply => ?_⟩
      obtain ⟨_, last, hlast, _, happly⟩ := Environment.update_eq_ok (Prod.fst_eq_iff.mp hreply)
      rw [h.chronicle.held] at hlast
      exact .inr ⟨_, _, last, rfl, Except.ok.inj hlast, happly⟩
  | settled _ _ _ _ _ _ hdone _ =>
    rw [hrest] at hdone
    cases hdone

end System.Consistent

end Steps

end LightningRecords

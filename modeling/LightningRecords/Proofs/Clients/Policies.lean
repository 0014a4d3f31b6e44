import LightningRecords.Proofs.Clients.Mirror
import LightningRecords.Proofs.Clients.Spelling
import LightningRecords.Proofs.Procedure.Declares

namespace LightningRecords

-- A policy that a move reports under a key.
def Move.Reports (key : Key) (policy : PolicyReport) : Move → Prop
  | .begin _ => False
  | .advance _ answers => ∃ id report, answers (.channel id) = .ok (some report) ∧
      policy ∈ report.policies ∧ Field.key .policy [policy.publicKey, id] = .ok key

-- What the published policies say that moves report under a key.
def Reported (moves : List Move) (key : Key) (flag : Option Bool) : Prop :=
  ∃ move ∈ moves, ∃ policy, move.Reports key policy ∧ policy.updatedAt.isSome = true ∧
    policy.isDisabled = flag

theorem Reported.mono {moves : List Move} {move : Move} {key : Key} {flag : Option Bool}
    (h : Reported [move] key flag) (hmove : move ∈ moves) : Reported moves key flag := by
  obtain ⟨_, hsame, hreports⟩ := h
  exact ⟨move, hmove, List.mem_singleton.mp hsame ▸ hreports⟩

theorem Environment.tells_of_serve {told : Key → Option Bool → Prop}
    {answers : (q : Question) → Except String q.Answer} {i : Nat} {r : Request} {e : Environment}
    (h : ∀ key flag, Reported [.advance i answers] key flag → told key flag) :
    r.Tells told (e.serve answers r).1 := by
  cases r with
  | ask question =>
    cases question with
    | channel id =>
      cases hanswer : answers (.channel id) with
      | error message => simp only [serve, hanswer, Request.Tells]
      | ok answer =>
        cases answer with
        | none => simp only [serve, hanswer, Request.Tells]
        | some report =>
          simp only [serve, hanswer, Request.Tells]
          intro policy hpolicy key hkey hupdated
          exact h key _ ⟨_, List.mem_singleton_self _, policy, ⟨id, report, hanswer, hpolicy, hkey⟩,
            hupdated, rfl⟩
    | _ => trivial
  | _ => trivial

section Versions

variable {told : Key → Option Bool → Prop} {writes : List Write} {w : Write} {key : Key}
  {record : Record}

-- Every version is a policy's, and the first also says whether the policy is disabled.
structure VersionsDeclare (told : Key → Option Bool → Prop) (writes : List Write) : Prop where
  all : ∀ key, ∀ record ∈ versions writes Schema.policy.table key, record.IsPolicy (told key)
  first : ∀ key, ∀ record ∈ (versions writes Schema.policy.table key).head?,
    record.IsPolicy fun flag => told key flag ∧ flag.isSome = true

theorem VersionsDeclare.append (h : VersionsDeclare told writes)
    (hw : w.table = Schema.policy.table → ∀ record, w.reply = .ok record →
      record.IsPolicy (told w.key) ∧ (versions writes w.table w.key = [] →
        record.IsPolicy fun flag => told w.key flag ∧ flag.isSome = true)) :
    VersionsDeclare told (writes ++ [w]) where
  all := by
    intro key record hrecord
    rcases mem_versions_append_singleton hrecord with hold | ⟨htable, rfl, hreply⟩
    · exact h.all key record hold
    · exact (hw htable record hreply).1
  first := by
    intro key record hrecord
    rcases mem_head?_versions_append hrecord with hold | ⟨hnone, htable, rfl, hreply⟩
    · exact h.first key record hold
    · exact (hw htable record hreply).2 hnone

end Versions

-- Calls about policies write nothing but policies, and have written nothing else.
structure System.Declares (s : System) (told : Key → Option Bool → Prop) : Prop where
  visits : ∀ v ∈ s.visits, v.call.schema = .policy → v.rest.Declares told
  versions : VersionsDeclare told s.writes

theorem Call.declares {c : Call} (h : c.schema = .policy) (told : Key → Option Bool → Prop) :
    c.procedure.run.Declares told := by
  cases c with
  | policy publicKey channelId => exact Procedure.declares_policy publicKey channelId
  | _ =>
    simp only [schema] at h
    exact absurd h (by decide)

namespace System.Declares

variable {told : Key → Option Bool → Prop} {s : System} {v : Visit} {i : Nat}
  {answers : (q : Question) → Except String q.Answer} {r : Request}
  {next : r.Reply → Interaction (Except SyncError v.call.Result)}

theorem start (config : Config) (fileSize : UInt64) (capacity : Capacity) :
    (System.start config fileSize capacity).Declares told where
  visits := by simp [System.start]
  versions := by constructor <;> simp [System.start, LightningRecords.versions]

theorem begin (h : s.Declares told) (call : Call) : (s.step (.begin call)).Declares told where
  visits := by
    intro v hv hpolicy
    rcases List.mem_append.mp hv with hv | hv
    · exact h.visits v hv hpolicy
    · rw [List.mem_singleton.mp hv] at hpolicy ⊢
      exact Call.declares hpolicy told
  versions := h.versions

-- A creation writes what was put, and an update what it makes of the version before.
theorem versions_exchange (h : s.Declares told) (hc : s.Consistent)
    (hhere : s.visits[i]? = some v) (hrest : v.rest = .request r next) :
    VersionsDeclare told (s.exchange i answers v r next).writes := by
  rcases hc.writes_exchange hhere hrest with hnone | ⟨w, hwrites, hplace, hw⟩
  · exact hnone ▸ h.versions
  · refine hwrites ▸ h.versions.append fun htable record hreply => ?_
    have hpolicy := Schema.eq_of_table_eq v.call.schema_mem (by decide) (hplace.symm.trans htable)
    have hdeclares := h.visits v (List.mem_of_getElem? hhere) hpolicy
    rw [hrest] at hdeclares
    rcases hw record hreply with ⟨fresh, rfl⟩ | ⟨changes, expected, last, rfl, hlast, happly⟩
    · have hput := hdeclares.1 _ _ _ _ rfl
      exact ⟨hput.mono fun _ hflag => hflag.1, fun _ => hput⟩
    · have hbefore := h.versions.all w.key last (htable ▸ List.mem_of_getLast? hlast)
      refine ⟨hdeclares.2.1 _ _ _ _ rfl last record hbefore happly, fun hvacant => ?_⟩
      rw [hvacant] at hlast
      cases hlast

theorem exchange (h : s.Declares told) (hc : s.Consistent) (hhere : s.visits[i]? = some v)
    (hrest : v.rest = .request r next)
    (htold : ∀ key flag, Reported [.advance i answers] key flag → told key flag) :
    (s.exchange i answers v r next).Declares told where
  visits := by
    intro v' hv' hpolicy
    rcases List.mem_or_eq_of_mem_set hv' with hold | rfl
    · exact h.visits v' hold hpolicy
    · have hdeclares := h.visits v (List.mem_of_getElem? hhere) hpolicy
      rw [hrest] at hdeclares
      exact hdeclares.2.2 _ (Environment.tells_of_serve htold)
  versions := h.versions_exchange hc hhere hrest

theorem step (h : s.Declares told) (hc : s.Consistent) {move : Move}
    (htold : ∀ key flag, Reported [move] key flag → told key flag) : (s.step move).Declares told := by
  cases move with
  | begin call => exact h.begin call
  | advance i answers =>
    simp only [System.step]
    split
    · exact h
    · rename_i v hhere
      split
      · exact h
      · rename_i r next hrest
        exact h.exchange hc hhere hrest htold

theorem run (config : Config) (fileSize : UInt64) (capacity : Capacity) (moves : List Move)
    (htold : ∀ key flag, Reported moves key flag → told key flag) :
    (System.run config fileSize capacity moves).Declares told :=
  System.Consistent.run_induction (P := (·.Declares told)) config fileSize capacity moves
    (start config fileSize capacity) fun _ hc h _ hmove => h.step hc fun key flag hflag =>
      htold key flag (hflag.mono hmove)

end System.Declares

-- Every record of a policy has its identity and the time when it was published. Whether the
-- policy is disabled it tells as a published policy was reported to tell it, by a boolean or not
-- at all. As it was created it told it by a boolean.
theorem policies_declared (config : Config) (fileSize : UInt64) (capacity : Capacity)
    (moves : List Move) :
    let s := System.run config fileSize capacity moves
    (∀ row ∈ (s.environment.contents Schema.policy.table).toList, ∃ key record,
      row.1 = key.bytes ∧ Record.decode row.2 = .ok record ∧
      record.IsPolicy (Reported moves key)) ∧
    ∀ key, ∀ record ∈ (versions s.writes Schema.policy.table key).head?,
      record.IsPolicy fun flag => Reported moves key flag ∧ flag.isSome = true := by
  intro s
  have hc : s.Consistent := .run config fileSize capacity moves
  have hdeclares : s.Declares (Reported moves) := .run config fileSize capacity moves fun _ _ h => h
  obtain ⟨stored, hholds⟩ := System.holdsOnly_run config fileSize capacity moves
  refine ⟨fun row hrow => ?_, hdeclares.versions.first⟩
  obtain ⟨key, record, hkey, hdecode, hlast⟩ := hc.decode_row hholds hrow
  exact ⟨key, record, hkey, hdecode, hdeclares.versions.all key record (List.mem_of_getLast? hlast)⟩

-- A policy that is not disabled is stored, and then reported again without a word about that.
theorem policy_no_longer_declared :
    let spoken : PolicyReport :=
      { publicKey := "02", isDisabled := some false, updatedAt := some "t" }
    let source : PolicyReport → (q : Question) → Except String q.Answer
      | policy, .channel _ => .ok (some { policies := [policy] })
      | _, _ => .error ""
    let silent := source { spoken with isDisabled := none }
    let moves : List Move := [.begin (.policy "02" "1x1x1"), .advance 0 (source spoken),
      .advance 0 (source spoken), .advance 0 (source spoken), .begin (.policy "02" "1x1x1"),
      .advance 1 silent, .advance 1 silent, .advance 1 silent]
    let e := (System.run Config.minimal 0 .byWeight moves).environment
    let key := Key.ofPreimage (Text.bytes "policy:02:1x1x1")
    ∃ record, e.held "policies" key = .ok (some record) ∧ record.contains "is_disabled" = false := by
  intro spoken source silent moves e key
  let record : Record := OrderedMap.ofList [("_rev", .int 1), ("id", .text "1x1x1"),
    ("public_key", .bytes [2]), ("updated_at", .text "t")]
  exact ⟨record, by decide +kernel, by decide +kernel⟩

end LightningRecords

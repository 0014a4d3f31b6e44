import LightningRecords.Proofs.Procedure.Answered
import LightningRecords.Proofs.Procedure.HtlcHistory

namespace LightningRecords

namespace PolicyReport

-- The policy that an answer is taken for, if it is taken for any. It has to be published, and
-- as long as none was taken before it also has to say whether it is disabled.
def qualifying? (publicKey : String) (earlier : List PolicyReport) (answer : Option ChannelReport) :
    Option PolicyReport := do
  let report ← answer
  let policy ← report.policies.find? fun policy => policy.publicKey = publicKey
  guard policy.updatedAt.isSome
  guard (earlier ≠ [] ∨ policy.isDisabled.isSome)
  return policy

-- The policies that a history of answers is taken for.
def qualifying (publicKey : String) (history : List (Option ChannelReport)) : List PolicyReport :=
  history.foldl
    (fun earlier answer => earlier ++ (qualifying? publicKey earlier answer).toList) []

-- What a history of policies tells: all that the last of them says, and nothing of the others.
def told (channelId : String) (publicKey : Bytes) (history : List PolicyReport) : Record :=
  match history.getLast? with
  | none => ∅
  | some last => Record.ofAttributes
    [("id", some (.text channelId)),
     ("public_key", some (.bytes publicKey)),
     ("base_fee_mtokens", last.baseFeeMtokens.map .text),
     ("cltv_delta", last.cltvDelta.map .ofUInt32),
     ("fee_rate", last.feeRate.map .int),
     ("is_disabled", last.isDisabled.map .bool),
     ("max_htlc_mtokens", last.maxHtlcMtokens.map .text),
     ("min_htlc_mtokens", last.minHtlcMtokens.map .text),
     ("updated_at", last.updatedAt.map .text)]

variable {publicKey channelId : String} {bytes : Bytes} {history items : List PolicyReport}
  {policy : PolicyReport} {answer : Option ChannelReport}

theorem qualifying_concat (publicKey : String) (earlier : List (Option ChannelReport))
    (answer : Option ChannelReport) :
    qualifying publicKey (earlier ++ [answer]) = qualifying publicKey earlier ++
      (qualifying? publicKey (qualifying publicKey earlier) answer).toList := by
  simp only [qualifying, List.foldl_append, List.foldl_cons, List.foldl_nil]

theorem record_eq_told (history : List PolicyReport) :
    policy.record channelId bytes = told channelId bytes (history ++ [policy]) := by
  rw [told, List.getLast?_concat]
  simp [record, Record.ofAttributes, OrderedMap.ofList, OrderedMap.insertSome_some]

theorem plain_told (channelId : String) (bytes : Bytes) (history : List PolicyReport)
    (name : String) : ∀ value ∈ (told channelId bytes history).get? name, value.IsPlain := by
  unfold told
  split
  · simp
  · refine Record.plain_ofAttributes ?_ name
    simp only [List.forall_mem_cons]
    refine ⟨?_, ?_, Value.isPlain_of_map fun _ => rfl, Value.isPlain_of_map fun _ => rfl,
      Value.isPlain_of_map fun _ => rfl, Value.isPlain_of_map fun _ => rfl,
      Value.isPlain_of_map fun _ => rfl, Value.isPlain_of_map fun _ => rfl,
      Value.isPlain_of_map fun _ => rfl, by simp⟩
    all_goals
      rintro _ ⟨⟩
      rfl

theorem folds (channelId : String) (bytes : Bytes) (items : List PolicyReport) :
    Folds .policy (fun policy _ => policy.record channelId bytes) (told channelId bytes) items where
  plain := plain_told channelId bytes
  first := fun _ => record_eq_told []
  later := fun history policy _ _ name _ =>
    congrArg (·.get? name) (record_eq_told history)
  fixed := by
    intro history policy hhistory _ name hname
    have hlast := List.getLast?_eq_some_getLast hhistory
    simp only [Schema.policy, List.mem_cons, List.not_mem_nil, or_false, not_or] at hname
    simp [told, hlast, Record.ofAttributes, hname]

-- What is stored is there because a policy was taken before.
theorem ofChannel?_eq_qualifying? {stored : Option Record} {earlier : List PolicyReport}
    (hstored : stored.isSome ↔ earlier ≠ []) :
    (answer.bind fun report => ofChannel? report publicKey stored) =
      qualifying? publicKey earlier answer := by
  cases answer with
  | none => rfl
  | some report => simp only [Option.bind_some, ofChannel?, qualifying?, Bool.or_eq_true, hstored]; rfl

end PolicyReport

namespace Procedure

variable {answers : (q : Question) → Except String q.Answer} {key : Key} {stored : Option Record}
  {outcome : Outcome} {publicKey channelId : String} {bytes : Bytes} {e e' : Environment}

-- The channel as an answer reports it.
def reported? (channelId : String) (answers : (q : Question) → Except String q.Answer) :
    Option ChannelReport :=
  (answers (.channel channelId)).toOption.join

-- A call reconciles the record with the policy that its answer is taken for.
theorem policy_reconciled_qualifying {earlier : List PolicyReport}
    (hkey : Field.key .policy [publicKey, channelId] = .ok key)
    (hheld : e.held Schema.policy.table key = .ok stored) (hstored : stored.isSome ↔ earlier ≠ [])
    (h : execute answers (policy publicKey channelId) e = (.ok outcome, e')) :
    ∃ bytes, Hex.decode publicKey = .ok bytes ∧ Reconciled answers .policy key stored
      ((PolicyReport.qualifying? publicKey earlier (reported? channelId answers)).map
        fun policy => policy.record channelId bytes) e outcome e' := by
  obtain ⟨bytes, found, _, report, hbytes, hfound, hreport, hreconciled⟩ := policy_reconciled h
  cases hkey.symm.trans hfound
  cases hheld.symm.trans hreconciled.held
  have hreported : reported? channelId answers = report := by
    rw [reported?, hreport]
    rfl
  rw [PolicyReport.ofChannel?_eq_qualifying? hstored, ← hreported] at hreconciled
  exact ⟨bytes, hbytes, hreconciled⟩

section History

variable {sources : List ((q : Question) → Except String q.Answer)}

-- By induction on the answers: one that a policy is taken for is told from now on, and any
-- other leaves things as they are.
theorem policy_retells (hkey : Field.key .policy [publicKey, channelId] = .ok key)
    (hbytes : Hex.decode publicKey = .ok bytes)
    (hvacant : e.held Schema.policy.table key = .ok none)
    (hcalls : Succession (fun answers => execute answers (policy publicKey channelId))
      Schema.policy.table key sources e e') :
    ∃ stored, e'.held Schema.policy.table key = .ok stored ∧
      Retells (PolicyReport.told channelId bytes)
        (PolicyReport.qualifying publicKey (sources.map (reported? channelId))) stored := by
  refine hcalls.holds (fun sources => Retells (PolicyReport.told channelId bytes)
    (PolicyReport.qualifying publicKey (sources.map (reported? channelId)))) hvacant .nothing ?_
  intro earlier answers stored e outcome e' _ hretells hheld hcall
  obtain ⟨found, hfound, hreconciled⟩ :=
    policy_reconciled_qualifying hkey hheld hretells.isSome_iff hcall
  cases hbytes.symm.trans hfound
  rw [List.map_append, List.map_singleton, PolicyReport.qualifying_concat]
  cases hqualifies : PolicyReport.qualifying? publicKey
      (PolicyReport.qualifying publicKey (earlier.map (reported? channelId)))
      (reported? channelId answers) with
  | none =>
    rw [hqualifies] at hreconciled
    obtain ⟨after, hafter, hleaves⟩ := hreconciled.leaves (by decide) (by simp) (by simp)
    cases hleaves
    refine ⟨_, hafter, ?_⟩
    simpa using hretells
  | some policy =>
    rw [hqualifies] at hreconciled
    have hdrafts := policy.drafts_record channelId bytes
    obtain ⟨after, hafter, hleaves⟩ := hreconciled.leaves (by decide)
      (by rintro _ ⟨⟩; exact hdrafts.storable) (by rintro _ _ ⟨⟩; exact hdrafts.revision)
    exact ⟨after, hafter, (PolicyReport.folds channelId bytes _).retells (by decide)
      (List.prefix_refl _) hretells hleaves⟩

-- Before any call nothing was taken, and a call tells what the key's bytes are.
theorem exists_policy_retells (hkey : Field.key .policy [publicKey, channelId] = .ok key)
    (hvacant : e.held Schema.policy.table key = .ok none)
    (hcalls : Succession (fun answers => execute answers (policy publicKey channelId))
      Schema.policy.table key sources e e') :
    sources = [] ∧ e'.held Schema.policy.table key = .ok none ∨
      ∃ bytes stored, Hex.decode publicKey = .ok bytes ∧
        e'.held Schema.policy.table key = .ok stored ∧ Retells (PolicyReport.told channelId bytes)
          (PolicyReport.qualifying publicKey (sources.map (reported? channelId))) stored := by
  by_cases hsources : sources = []
  · exact .inl ⟨hsources, hcalls.eq_of_nil hsources ▸ hvacant⟩
  · obtain ⟨_, _, _, _, _, hcall⟩ := hcalls.exists_call hsources
    obtain ⟨bytes, hhex, _⟩ := execute_ofExcept_eq_ok hcall
    have hbytes := Field.decode_of_hex hhex
    obtain ⟨stored, hstored, hretells⟩ := policy_retells hkey hbytes hvacant hcalls
    exact .inr ⟨bytes, stored, hbytes, hstored, hretells⟩

-- The record of a policy says what the last policy said that was taken for it, and counts those
-- after the first that were news. An answer that is taken for none changes nothing.
theorem policies_retold (publicKey channelId : String) (key : Key) (e e' : Environment)
    (sources : List ((q : Question) → Except String q.Answer))
    (hkey : Field.key .policy [publicKey, channelId] = .ok key)
    (hvacant : e.held Schema.policy.table key = .ok none)
    (hcalls : Succession (fun answers => execute answers (policy publicKey channelId))
      Schema.policy.table key sources e e') :
    let policies := PolicyReport.qualifying publicKey (sources.map (reported? channelId))
    (policies = [] → e'.held Schema.policy.table key = .ok none) ∧
    (policies ≠ [] → ∃ bytes, Hex.decode publicKey = .ok bytes ∧
      e'.Recounts Schema.policy.table key (PolicyReport.told channelId bytes) policies) ∧
    ∀ answers e₁ outcome e₂, e₁.held Schema.policy.table key = e'.held Schema.policy.table key →
      execute answers (policy publicKey channelId) e₁ = (.ok outcome, e₂) →
      PolicyReport.qualifying? publicKey policies (reported? channelId answers) = none →
      outcome = .unchanged ∧ e₂.tables = e₁.tables := by
  intro policies
  obtain ⟨stored, hstored, hsome, hbytes⟩ : ∃ stored, e'.held Schema.policy.table key = .ok stored ∧
      (stored.isSome ↔ policies ≠ []) ∧ (policies ≠ [] → ∃ bytes, Hex.decode publicKey = .ok bytes ∧
        e'.Recounts Schema.policy.table key (PolicyReport.told channelId bytes) policies) := by
    rcases exists_policy_retells hkey hvacant hcalls with
      ⟨rfl, hnone⟩ | ⟨bytes, stored, hbytes, hstored, hretells⟩
    · exact ⟨none, hnone, by simp [policies, PolicyReport.qualifying], fun hne => absurd rfl hne⟩
    · exact ⟨stored, hstored, hretells.isSome_iff,
        fun hne => ⟨bytes, hbytes, hretells.recounts hne hstored⟩⟩
  refine ⟨fun hnone => ?_, hbytes, fun answers e₁ outcome e₂ hidle hcall hunqualified => ?_⟩
  · have hvoid : stored = none := by simpa [hnone] using hsome
    exact hvoid ▸ hstored
  · obtain ⟨_, _, hreconciled⟩ :=
      policy_reconciled_qualifying hkey (hidle.trans hstored) hsome hcall
    rw [hunqualified] at hreconciled
    exact hreconciled.idle

end History

-- A policy that does not say whether it is disabled is not taken for the first one, but for the
-- next.
theorem policies_retold_silent :
    let spoken : PolicyReport :=
      { publicKey := "02", feeRate := some 1, isDisabled := some false, updatedAt := some "t" }
    let silent : PolicyReport := { spoken with feeRate := some 250, isDisabled := none }
    let source : PolicyReport → (q : Question) → Except String q.Answer
      | policy, .channel _ => .ok (some { policies := [policy] })
      | _, _ => .error ""
    let start := Environment.start Config.minimal 0 ∅
    let early := execute (source silent) (policy "02" "1x1x1") start
    let once := execute (source spoken) (policy "02" "1x1x1") early.2
    let twice := execute (source silent) (policy "02" "1x1x1") once.2
    ∃ key bytes, Field.key .policy ["02", "1x1x1"] = .ok key ∧ Hex.decode "02" = .ok bytes ∧
      early.1 = .ok .unchanged ∧ twice.2.Recounts Schema.policy.table key
        (PolicyReport.told "1x1x1" bytes) [spoken, silent] := by
  intro spoken silent source start early once twice
  obtain ⟨key, hkey⟩ : ∃ key, Field.key .policy ["02", "1x1x1"] = .ok key :=
    exists_of_isOk (by decide +kernel)
  obtain ⟨first, hearly⟩ := exists_of_isOk (show early.1.isOk = true by decide +kernel)
  obtain ⟨second, honce⟩ := exists_of_isOk (show once.1.isOk = true by decide +kernel)
  obtain ⟨third, htwice⟩ := exists_of_isOk (show twice.1.isOk = true by decide +kernel)
  have hnone : Succession (fun answers => execute answers (policy "02" "1x1x1"))
      Schema.policy.table key [] start start := .start start
  have hfirst : Succession (fun answers => execute answers (policy "02" "1x1x1"))
      Schema.policy.table key ([] ++ [source silent]) start early.2 :=
    .step hnone rfl (Prod.fst_eq_iff.mp hearly)
  have hsecond : Succession (fun answers => execute answers (policy "02" "1x1x1"))
      Schema.policy.table key ([source silent] ++ [source spoken]) start once.2 :=
    .step hfirst rfl (Prod.fst_eq_iff.mp honce)
  have hall : Succession (fun answers => execute answers (policy "02" "1x1x1"))
      Schema.policy.table key ([source silent, source spoken] ++ [source silent]) start twice.2 :=
    .step hsecond rfl (Prod.fst_eq_iff.mp htwice)
  have hunqualified := (policies_retold "02" "1x1x1" key start start [] hkey rfl hnone).2.2
    (source silent) start first early.2 rfl (Prod.fst_eq_iff.mp hearly) (by decide +kernel)
  have hpolicies : PolicyReport.qualifying "02" ([source silent, source spoken, source silent].map
      (reported? "1x1x1")) = [spoken, silent] := by decide +kernel
  have hretold := (policies_retold "02" "1x1x1" key start twice.2
    [source silent, source spoken, source silent] hkey rfl hall).2.1
  rw [hpolicies] at hretold
  obtain ⟨bytes, hbytes, hrecounts⟩ := hretold (by simp)
  exact ⟨key, bytes, hkey, hbytes, hearly.trans (congrArg _ hunqualified.1), hrecounts⟩

end Procedure

end LightningRecords

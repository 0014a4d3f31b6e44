import LightningRecords.Proofs.Procedure.Drafts
import LightningRecords.Proofs.Procedure.Reconcile

namespace LightningRecords

open Difference (Alike)

namespace Difference

theorem Alike.refl (value : Option Value) : Alike value value := .inl rfl

-- Nothing but a list is like what is not there.
theorem not_alike_none {value : Value} (h : value.asList? = none) : ¬Alike none (some value) := by
  rintro (heq | ⟨_, bs, _, heq, _⟩)
  · cases heq
  · simp only [Option.getD_some] at heq
    rw [heq] at h
    cases h

end Difference

-- What a reconciliation leaves of the mutable attributes: the fresh value, or the
-- stored one where that is as good.
def Schema.Settled (schema : Schema) (stored : Option Record) (fresh after : Record) : Prop :=
  ∀ name ∈ schema.mutable, after.get? name = fresh.get? name ∨
    after.get? name = stored? stored name ∧ Alike (stored? stored name) (fresh.get? name)

-- A way to make a record out of what is stored, such that what its record is
-- reconciled to is as it would make it anew.
structure Schema.Steady (schema : Schema) (build : Option Record → Except SyncError (Option Record)) :
    Prop where
  storable : ∀ stored fresh, (∀ record ∈ stored, record.Storable) →
    build stored = .ok (some fresh) → fresh.Storable
  drafts : ∀ fresh, build none = .ok (some fresh) → schema.Drafts fresh
  again : ∀ stored fresh after, build stored = .ok (some fresh) →
    schema.Settled stored fresh after → ∃ result, build (some after) = .ok result ∧
      ∀ record ∈ result, ∀ name ∈ schema.mutable, Alike (after.get? name) (record.get? name)

variable {schema : Schema} {stored : Option Record} {fresh after : Record}

theorem Schema.Settled.alike (h : schema.Settled stored fresh after) {name : String}
    (hname : name ∈ schema.mutable) : Alike (after.get? name) (fresh.get? name) := by
  rcases h name hname with heq | ⟨heq, halike⟩
  · exact .inl heq
  · rw [heq]
    exact halike

theorem Schema.Steady.of_drafts {build : Option Record → Except SyncError (Option Record)}
    (hdrafts : ∀ stored fresh, (∀ record ∈ stored, record.Storable) →
      build stored = .ok (some fresh) → schema.Drafts fresh)
    (hagain : ∀ stored fresh after, build stored = .ok (some fresh) →
      schema.Settled stored fresh after → ∃ record, build (some after) = .ok (some record) ∧
        ∀ name ∈ schema.mutable, Alike (after.get? name) (record.get? name)) :
    schema.Steady build where
  storable := fun stored fresh hstored hbuild => (hdrafts stored fresh hstored hbuild).storable
  drafts := fun fresh hbuild => hdrafts none fresh (by simp) hbuild
  again := by
    intro stored fresh after hbuild hsettled
    obtain ⟨record, hrecord, halike⟩ := hagain stored fresh after hbuild hsettled
    refine ⟨some record, hrecord, ?_⟩
    rintro other ⟨⟩
    exact halike

-- What does not look at the stored record makes the same one again.
theorem Schema.Steady.const {result : Except SyncError (Option Record)}
    (h : ∀ fresh, result = .ok (some fresh) → schema.Drafts fresh) :
    schema.Steady fun _ => result :=
  .of_drafts (fun _ fresh _ hbuild => h fresh hbuild) fun _ fresh _ hbuild hsettled =>
    ⟨fresh, hbuild, fun _ hname => hsettled.alike hname⟩

theorem Schema.Steady.idle : schema.Steady fun _ => .ok none :=
  .const fun _ hnone => by cases hnone

-- An attribute that the record has anew where it was settled on.
def Lasts (build : Option Record → Record) (name : String) : Prop :=
  ∀ stored after, Alike (after.get? name) ((build stored).get? name) →
    Alike (after.get? name) ((build (some after)).get? name)

theorem Schema.Steady.of_lasts {build : Option Record → Record}
    (hdrafts : ∀ stored, (∀ record ∈ stored, record.Storable) → schema.Drafts (build stored))
    (hlasts : ∀ name ∈ schema.mutable, Lasts build name) :
    schema.Steady fun stored => .ok (some (build stored)) := by
  refine .of_drafts ?_ ?_
  · rintro stored fresh hstored ⟨⟩
    exact hdrafts stored hstored
  · rintro stored fresh after ⟨⟩ hsettled
    exact ⟨_, rfl, fun name hname => hlasts name hname stored after (hsettled.alike hname)⟩

theorem alike_kept {name : String} {told : Option Value}
    (h : Alike (after.get? name) (told.or (stored? stored name))) :
    Alike (after.get? name) (told.or (stored? (some after) name)) := by
  cases told with
  | none => exact .refl _
  | some value => exact h

theorem alike_keptFeatures {features : List UInt32}
    (h : Alike (after.get? "features") (some (keptFeatures stored features))) :
    Alike (after.get? "features") (some (keptFeatures (some after) features)) := by
  unfold keptFeatures at h ⊢
  by_cases hempty : features.isEmpty
  · have hnil : features = [] := List.isEmpty_iff.mp hempty
    subst hnil
    cases hget : after.get? "features" with
    | none =>
      have hstored : stored? (some after) "features" = none := hget
      rw [hstored]
      exact .inr ⟨[], [], rfl, rfl, by simp⟩
    | some value =>
      have hstored : stored? (some after) "features" = some value := hget
      rw [hstored]
      exact .refl _
  · simp only [hempty] at h ⊢
    exact h

section Builders

theorem NodeReport.lasts_record (report : NodeReport) (publicKey : Bytes) :
    ∀ name ∈ Schema.node.mutable, Lasts (report.record publicKey) name := by
  intro name hname stored after h
  simp only [Schema.node, List.mem_cons, List.not_mem_nil, or_false] at hname
  rcases hname with rfl | rfl | rfl | rfl | rfl
  all_goals
    simp [record, OrderedMap.ofList] at h ⊢
    first
      | exact h
      | exact alike_kept h
      | exact alike_keptFeatures h

theorem PeerReport.lasts_record (report : PeerReport) (localKey publicKey : Bytes) :
    ∀ name ∈ Schema.peer.mutable, Lasts (report.record localKey publicKey) name := by
  intro name hname stored after h
  simp only [Schema.peer, List.mem_cons, List.not_mem_nil, or_false] at hname
  rcases hname with rfl | rfl | rfl | rfl | rfl
  all_goals
    simp [record, OrderedMap.ofList] at h ⊢
    first
      | exact h
      | exact alike_keptFeatures h

theorem ForwardHtlc.lasts_record (htlc : ForwardHtlc) (publicKey : Bytes)
    (inPayment outPayment : Int64) :
    ∀ name ∈ Schema.forwardHtlc.mutable,
      Lasts (htlc.record publicKey inPayment outPayment) name := by
  intro name hname stored after h
  simp only [Schema.forwardHtlc, List.mem_cons, List.not_mem_nil, or_false] at hname
  rcases hname with rfl | rfl | rfl | rfl | rfl | rfl | rfl | rfl | rfl
  all_goals
    simp [record, OrderedMap.ofList] at h ⊢
    first
      | exact h
      | exact alike_kept h

theorem PaymentHtlc.lasts_record (htlc : PaymentHtlc) (publicKey : Bytes) (outPayment : Int64) :
    ∀ name ∈ Schema.paymentHtlc.mutable, Lasts (htlc.record publicKey outPayment) name := by
  intro name hname stored after h
  simp only [Schema.paymentHtlc, List.mem_cons, List.not_mem_nil, or_false] at hname
  rcases hname with rfl | rfl | rfl | rfl | rfl
  all_goals
    simp [record, OrderedMap.ofList] at h ⊢
    first
      | exact h
      | exact alike_kept h

namespace ChannelReport

variable {report : ChannelReport} {id : String} {publicKeys : List Bytes}

-- A channel without its funding.
def unfunded (id : String) (publicKeys : List Bytes) : Record :=
  OrderedMap.ofList [("id", .text id), ("public_keys", .list (publicKeys.map Value.bytes))]

theorem get?_unfunded {name : String} (hname : name ∈ Schema.channel.mutable) :
    (unfunded id publicKeys).get? name = none := by
  simp only [Schema.channel, List.mem_cons, List.not_mem_nil, or_false] at hname
  rcases hname with rfl | rfl | rfl
  all_goals simp [unfunded, OrderedMap.ofList]

theorem get?_funding {name : String} (hname : name ∈ Schema.channel.mutable) :
    (funding.foldl (fun record name => record.insertSome name (stored? stored name))
      (unfunded id publicKeys)).get? name = stored? stored name := by
  have hnone : (unfunded id publicKeys).get? name = none := get?_unfunded hname
  simp only [Schema.channel, List.mem_cons, List.not_mem_nil, or_false] at hname
  rcases hname with rfl | rfl | rfl
  all_goals simp [funding, hnone]

-- Once a capacity is stored, all funding stays as it is.
theorem again_of_funded (hkeys : report.publicKeys = .ok publicKeys)
    (hfunded : (after.get? "capacity").isSome) :
    ∃ record, report.record id (some after) = .ok record ∧
      ∀ name ∈ Schema.channel.mutable, Alike (after.get? name) (record.get? name) := by
  have hstored : (stored? (some after) "capacity").isSome := hfunded
  refine ⟨funding.foldl (fun record name => record.insertSome name (stored? (some after) name))
    (unfunded id publicKeys), ?_, ?_⟩
  · simp only [record, hkeys, bind, Except.bind, hstored, if_true]
    rfl
  · intro name hname
    rw [get?_funding hname]
    exact .refl _

theorem again_record (hrecord : report.record id stored = .ok fresh)
    (h : Schema.channel.Settled stored fresh after) :
    ∃ record, report.record id (some after) = .ok record ∧
      ∀ name ∈ Schema.channel.mutable, Alike (after.get? name) (record.get? name) := by
  obtain ⟨publicKeys, hkeys, hrecord⟩ := bind_eq_ok_iff.mp hrecord
  have hname : "capacity" ∈ Schema.channel.mutable := by simp [Schema.channel]
  have hcapacity := h "capacity" hname
  simp only at hrecord
  split at hrecord
  · rename_i hstored
    cases hrecord
    apply again_of_funded hkeys
    have heq : after.get? "capacity" = stored? stored "capacity" := by
      rcases hcapacity with heq | ⟨heq, _⟩
      · exact heq.trans (get?_funding hname)
      · exact heq
    rw [heq]
    exact hstored
  · rename_i hstored
    have hnone : stored? stored "capacity" = none := by simpa using hstored
    split at hrecord
    · obtain ⟨transactionId, _, hrecord⟩ := bind_eq_ok_iff.mp hrecord
      cases hrecord
      apply again_of_funded hkeys
      rcases hcapacity with heq | ⟨_, halike⟩
      · rw [heq]
        simp
      · rw [hnone] at halike
        exact absurd halike (by simpa using Difference.not_alike_none rfl)
    · rename_i hfunding
      cases hrecord
      have hafter : stored? (some after) "capacity" = none := by
        change after.get? "capacity" = none
        rcases hcapacity with heq | ⟨heq, _⟩
        · exact heq.trans (get?_unfunded hname)
        · exact heq.trans hnone
      refine ⟨unfunded id publicKeys, ?_, fun name hname => h.alike hname⟩
      simp only [record, hkeys, bind, Except.bind, hafter, Option.isSome_none, Bool.false_eq_true,
        if_false, hfunding]
      rfl

end ChannelReport

-- What may be stored first may be stored later.
theorem PolicyReport.ofChannel?_some {report : ChannelReport} {publicKey : String}
    {policy : PolicyReport} (h : ofChannel? report publicKey stored = some policy) :
    ofChannel? report publicKey (some after) = some policy := by
  obtain ⟨found, hfound, h⟩ := Option.bind_eq_some_iff.mp h
  obtain ⟨_, hupdated, h⟩ := Option.bind_eq_some_iff.mp h
  obtain ⟨_, _, h⟩ := Option.bind_eq_some_iff.mp h
  cases h
  simp only [ofChannel?, hfound, bind, Option.bind, hupdated]
  rfl

-- A peer that was set to be no longer connected is as it was.
theorem again_disconnected? (hfresh : disconnected? stored = some fresh)
    (h : Schema.peer.Settled stored fresh after) : disconnected? (some after) = none := by
  have hname : "is_connected" ∈ Schema.peer.mutable := by simp [Schema.peer]
  obtain ⟨original, rfl, hfresh⟩ := Option.bind_eq_some_iff.mp hfresh
  obtain ⟨_, hguard, hfresh⟩ := Option.bind_eq_some_iff.mp hfresh
  cases hfresh
  have hbefore : original.get? "is_connected" = some (.bool true) := by
    by_contra hnot
    simp [hnot] at hguard
  have hafter : after.get? "is_connected" = some (.bool false) := by
    rcases h "is_connected" hname with heq | ⟨_, halike⟩
    · simpa using heq
    · change Alike (original.get? "is_connected") _ at halike
      rw [hbefore, OrderedMap.get?_insert_self] at halike
      simp [Alike] at halike
  simp [disconnected?, hafter]

end Builders

end LightningRecords

import LightningRecords.Procedure.Local
import LightningRecords.Procedure.Htlc
import LightningRecords.Proofs.Except
import LightningRecords.Proofs.Record.RoundTrip

namespace LightningRecords

-- A record that a report makes: it has the attribute that every record of its kind
-- has, no revision yet, and no list that is nested too deep to be read back.
structure Schema.Drafts (schema : Schema) (record : Record) : Prop where
  unique : record.contains schema.unique = true
  revision : record.get? Record.revisionAttribute = none
  storable : record.Storable

namespace Value

@[simp] theorem depth_int (n : Int64) : (int n).depth = 0 := rfl

@[simp] theorem depth_text (s : String) : (text s).depth = 0 := rfl

@[simp] theorem depth_bytes (b : Bytes) : (bytes b).depth = 0 := rfl

@[simp] theorem depth_bool (flag : Bool) : (bool flag).depth = 0 := rfl

@[simp] theorem depth_ofUInt32 (n : UInt32) : (ofUInt32 n).depth = 0 := rfl

theorem depthAll_le {items : List Value} {bound : Nat} (h : ∀ v ∈ items, v.depth ≤ bound) :
    depthAll items ≤ bound := by
  induction items with
  | nil => exact Nat.zero_le _
  | cons v rest ih =>
    have hrest := ih fun w hw => h w (List.mem_cons_of_mem v hw)
    exact Nat.max_le.mpr ⟨h v (by simp), hrest⟩

-- A list of values that are no lists themselves.
theorem depth_list_map {α : Type} {f : α → Value} (h : ∀ a, (f a).depth = 0) (items : List α) :
    (list (items.map f)).depth ≤ Record.maxValueDepth := by
  have hitems : depthAll (items.map f) ≤ 0 := by
    apply depthAll_le
    intro v hv
    obtain ⟨a, _, rfl⟩ := List.mem_map.mp hv
    rw [h a]
  simp only [depth, Record.maxValueDepth]
  omega

end Value

namespace Schema.Drafts

variable {schema : Schema} {record : Record}

theorem ofList {attributes : List (String × Value)}
    (hunique : schema.unique ∈ attributes.map Prod.fst)
    (hrevision : Record.revisionAttribute ∉ attributes.map Prod.fst)
    (hdepth : ∀ a ∈ attributes, a.2.depth ≤ Record.maxValueDepth) :
    schema.Drafts (OrderedMap.ofList attributes) where
  unique := OrderedMap.contains_ofList hunique
  revision := by
    cases hget : (OrderedMap.ofList attributes : Record).get? Record.revisionAttribute with
    | none => rfl
    | some value =>
      have hmem := OrderedMap.mem_of_mem_ofList ((OrderedMap.mem_toList_iff _ _ value).mpr hget)
      exact absurd (List.mem_map_of_mem hmem) hrevision
  storable := Record.storable_ofList hdepth

theorem insert (h : schema.Drafts record) {name : String} (hname : name ≠ Record.revisionAttribute)
    {value : Value} (hvalue : value.depth ≤ Record.maxValueDepth) :
    schema.Drafts (OrderedMap.insert record name value) where
  unique := (OrderedMap.contains_insert _ _ _ _).mpr (.inr h.unique)
  revision := by
    rw [OrderedMap.get?_insert_of_ne _ _ hname.symm]
    exact h.revision
  storable := h.storable.insert name hvalue

theorem insertSome (h : schema.Drafts record) {name : String}
    (hname : name ≠ Record.revisionAttribute) {value : Option Value}
    (hvalue : ∀ v ∈ value, v.depth ≤ Record.maxValueDepth) :
    schema.Drafts (OrderedMap.insertSome record name value) := by
  cases value with
  | none => exact h
  | some v => exact h.insert hname (hvalue v rfl)

end Schema.Drafts

section Builders

variable {stored : Option Record}

theorem depth_stored? (hstored : ∀ record ∈ stored, record.Storable) {name : String} {value : Value}
    (h : stored? stored name = some value) : value.depth ≤ Record.maxValueDepth := by
  obtain ⟨record, hrecord, hget⟩ := Option.bind_eq_some_iff.mp h
  exact hstored record hrecord name value hget

-- A told value is no list, and a kept one was stored before.
theorem depth_kept (hstored : ∀ record ∈ stored, record.Storable) {name : String} {α : Type}
    {told : Option α} {f : α → Value} (hf : ∀ a, (f a).depth = 0) {value : Value}
    (h : (told.map f).or (stored? stored name) = some value) :
    value.depth ≤ Record.maxValueDepth := by
  cases told with
  | none => exact depth_stored? hstored h
  | some a =>
    cases h
    rw [hf a]
    exact Nat.zero_le _

theorem depth_told {α : Type} {told : Option α} {f : α → Value} (hf : ∀ a, (f a).depth = 0) :
    ∀ value ∈ told.map f, value.depth ≤ Record.maxValueDepth := by
  intro value h
  obtain ⟨a, _, rfl⟩ := Option.map_eq_some_iff.mp h
  rw [hf a]
  exact Nat.zero_le _

theorem depth_keptFeatures (hstored : ∀ record ∈ stored, record.Storable) (features : List UInt32) :
    (keptFeatures stored features).depth ≤ Record.maxValueDepth := by
  have hreported := Value.depth_list_map Value.depth_ofUInt32 features
  unfold keptFeatures
  split
  · cases hkept : stored? stored "features" with
    | none => exact hreported
    | some value => exact depth_stored? hstored hkept
  · exact hreported

theorem NodeReport.drafts_record (hstored : ∀ record ∈ stored, record.Storable)
    (report : NodeReport) (publicKey : Bytes) :
    Schema.node.Drafts (report.record publicKey stored) := by
  have hfeatures := depth_keptFeatures hstored report.features
  have hsockets := Value.depth_list_map Value.depth_text report.sockets
  refine Schema.Drafts.ofList ?_ ?_ ?_
    |>.insertSome (by decide) (fun _ => depth_kept hstored Value.depth_text)
  · simp [Schema.node]
  · simp [Record.revisionAttribute]
  · simpa using ⟨hfeatures, hsockets⟩

theorem PolicyReport.drafts_record (policy : PolicyReport) (channelId : String)
    (publicKey : Bytes) : Schema.policy.Drafts (policy.record channelId publicKey) := by
  have hidentity : Schema.policy.Drafts
      (OrderedMap.ofList [("id", .text channelId), ("public_key", .bytes publicKey)]) :=
    .ofList (by simp [Schema.policy]) (by simp [Record.revisionAttribute]) (by simp)
  exact hidentity
    |>.insertSome (by decide) (depth_told Value.depth_text)
    |>.insertSome (by decide) (depth_told Value.depth_ofUInt32)
    |>.insertSome (by decide) (depth_told Value.depth_int)
    |>.insertSome (by decide) (depth_told Value.depth_bool)
    |>.insertSome (by decide) (depth_told Value.depth_text)
    |>.insertSome (by decide) (depth_told Value.depth_text)
    |>.insertSome (by decide) (depth_told Value.depth_text)

-- Funding that is stored is taken over, whatever the report says.
theorem ChannelReport.drafts_funding {record : Record}
    (hstored : ∀ record ∈ stored, record.Storable) (h : Schema.channel.Drafts record)
    (names : List String) (hnames : Record.revisionAttribute ∉ names) :
    Schema.channel.Drafts
      (names.foldl (fun record name => record.insertSome name (stored? stored name)) record) := by
  induction names generalizing record with
  | nil => exact h
  | cons name rest ih =>
    rw [List.mem_cons, not_or] at hnames
    exact ih (h.insertSome (Ne.symm hnames.1) fun _ => depth_stored? hstored) hnames.2

theorem ChannelReport.drafts_record (hstored : ∀ record ∈ stored, record.Storable)
    {report : ChannelReport} {id : String} {record : Record}
    (h : report.record id stored = .ok record) : Schema.channel.Drafts record := by
  obtain ⟨publicKeys, _, h⟩ := bind_eq_ok_iff.mp h
  have hkeys := Value.depth_list_map Value.depth_bytes publicKeys
  have hknown : Schema.channel.Drafts
      (OrderedMap.ofList [("id", .text id), ("public_keys", .list (publicKeys.map Value.bytes))]) :=
    .ofList (by simp [Schema.channel]) (by simp [Record.revisionAttribute]) (by simpa using hkeys)
  simp only at h
  split at h
  · cases h
    exact drafts_funding hstored hknown funding (by decide)
  · split at h
    · obtain ⟨transactionId, _, h⟩ := bind_eq_ok_iff.mp h
      cases h
      exact hknown
        |>.insert (by decide) (Nat.zero_le _)
        |>.insert (by decide) (Nat.zero_le _)
        |>.insert (by decide) (Nat.zero_le _)
    · cases h
      exact hknown

theorem PeerReport.drafts_record (hstored : ∀ record ∈ stored, record.Storable)
    (report : PeerReport) (localKey publicKey : Bytes) :
    Schema.peer.Drafts (report.record localKey publicKey stored) := by
  have hfeatures := depth_keptFeatures hstored report.features
  refine Schema.Drafts.ofList ?_ ?_ ?_
    |>.insertSome (by decide) (depth_told Value.depth_bool)
  · simp [Schema.peer]
  · simp [Record.revisionAttribute]
  · simpa using hfeatures

theorem storable_disconnected? (hstored : ∀ record ∈ stored, record.Storable) {record : Record}
    (h : disconnected? stored = some record) : record.Storable := by
  obtain ⟨original, horiginal, h⟩ := Option.bind_eq_some_iff.mp h
  obtain ⟨_, _, h⟩ := Option.bind_eq_some_iff.mp h
  cases h
  exact (hstored original horiginal).insert _ (Nat.zero_le _)

theorem LocalChannelReport.drafts_record {report : LocalChannelReport}
    {localKey transactionId : Bytes} {record : Record}
    (h : report.record localKey transactionId = .ok record) :
    Schema.localChannel.Drafts record := by
  obtain ⟨partner, _, h⟩ := bind_eq_ok_iff.mp h
  cases h
  refine Schema.Drafts.ofList ?_ ?_ ?_
    |>.insertSome (by decide) (depth_told Value.depth_text)
    |>.insertSome (by decide) (depth_told Value.depth_bool)
    |>.insertSome (by decide) (depth_told Value.depth_int)
    |>.insertSome (by decide) (depth_told Value.depth_int)
  · simp [Schema.localChannel]
  · simp [Record.revisionAttribute]
  · simp

theorem drafts_block (height : UInt32) (id : Bytes) :
    Schema.block.Drafts (OrderedMap.ofList [("height", .ofUInt32 height), ("id", .bytes id)]) :=
  .ofList (by simp [Schema.block]) (by simp [Record.revisionAttribute]) (by simp)

theorem ForwardHtlc.drafts_record (hstored : ∀ record ∈ stored, record.Storable)
    (htlc : ForwardHtlc) (publicKey : Bytes) (inPayment outPayment : Int64) :
    Schema.forwardHtlc.Drafts (htlc.record publicKey inPayment outPayment stored) := by
  refine Schema.Drafts.ofList ?_ ?_ ?_
    |>.insertSome (by decide) (depth_told Value.depth_text)
    |>.insertSome (by decide) (depth_told Value.depth_text)
    |>.insertSome (by decide) (fun _ => depth_kept hstored Value.depth_ofUInt32)
    |>.insertSome (by decide) (fun _ => depth_kept hstored Value.depth_text)
    |>.insertSome (by decide) (fun _ => depth_kept hstored Value.depth_text)
    |>.insertSome (by decide) (fun _ => depth_kept hstored Value.depth_ofUInt32)
  · simp [Schema.forwardHtlc]
  · simp [Record.revisionAttribute]
  · simp

theorem PaymentHtlc.drafts_record (hstored : ∀ record ∈ stored, record.Storable)
    (htlc : PaymentHtlc) (publicKey : Bytes) (outPayment : Int64) :
    Schema.paymentHtlc.Drafts (htlc.record publicKey outPayment stored) := by
  refine Schema.Drafts.ofList ?_ ?_ ?_
    |>.insertSome (by decide) (fun _ => depth_kept hstored Value.depth_text)
    |>.insertSome (by decide) (fun _ => depth_kept hstored Value.depth_ofUInt32)
  · simp [Schema.paymentHtlc]
  · simp [Record.revisionAttribute]
  · simp

theorem ReceiveHtlc.drafts_record (htlc : ReceiveHtlc) (publicKey : Bytes) (inPayment : Int64) :
    Schema.receiveHtlc.Drafts (htlc.record publicKey inPayment) := by
  refine Schema.Drafts.ofList ?_ ?_ ?_
    |>.insertSome (by decide) (depth_told Value.depth_text)
    |>.insertSome (by decide) (depth_told Value.depth_text)
  · simp [Schema.receiveHtlc]
  · simp [Record.revisionAttribute]
  · simp

end Builders

end LightningRecords

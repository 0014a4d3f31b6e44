import LightningRecords.Proofs.Procedure.History
import LightningRecords.Proofs.Procedure.Spells

namespace LightningRecords

-- A record of those attributes that have a value.
def Record.ofAttributes (attributes : List (String × Option Value)) : Record :=
  attributes.foldl (fun record (name, value) => record.insertSome name value) ∅

section News

variable {ι σ : Type} [DecidableEq σ] (state : List ι → σ)

-- How many items of a history after the first have changed the state that it leads to.
def countNews (history : List ι) : Nat :=
  (List.range history.length).countP fun k =>
    0 < k ∧ state (history.take (k + 1)) ≠ state (history.take k)

theorem countNews_append (history : List ι) (item : ι) :
    countNews state (history ++ [item]) = countNews state history +
      if history ≠ [] ∧ state (history ++ [item]) ≠ state history then 1 else 0 := by
  have hearlier : ((List.range history.length).countP fun k => decide
      (0 < k ∧ state ((history ++ [item]).take (k + 1)) ≠ state ((history ++ [item]).take k))) =
      countNews state history := by
    apply List.countP_congr
    intro k hk
    have hlt := List.mem_range.mp hk
    rw [List.take_append_of_le_length hlt, List.take_append_of_le_length (Nat.le_of_lt hlt)]
  have hwhole : (history ++ [item]).take (history.length + 1) = history ++ [item] :=
    List.take_of_length_le (by simp)
  rw [countNews, List.length_append, List.length_singleton, List.range_succ, List.countP_append,
    hearlier, List.countP_singleton, hwhole, List.take_left]
  simp only [List.length_pos_iff, decide_eq_true_eq]

end News

section Folds

variable {ι : Type} {schema : Schema} {fresh : ι → Option Record → Record}
  {told : List ι → Record} {items history : List ι} {item : ι}

-- A record that says what its history tells, one revision further for each item after the
-- first that has changed it.
inductive Retells (told : List ι → Record) : List ι → Option Record → Prop where
  | nothing : Retells told [] none
  | something {history : List ι} {revision : Int64} (hhistory : history ≠ [])
      (hnews : revision.toInt = countNews told history) :
      Retells told history
        (some ((told history).insert Record.revisionAttribute (.int revision)))

-- What a history tells is what its first item makes, and from then on what each item makes
-- of what was told before it.
structure Folds (schema : Schema) (fresh : ι → Option Record → Record) (told : List ι → Record)
    (items : List ι) : Prop where
  plain : ∀ history name, ∀ value ∈ (told history).get? name, value.IsPlain
  first : ∀ item, fresh item none = told [item]
  later : ∀ history item revision, history ≠ [] → ∀ name ∈ schema.mutable,
    (fresh item (some ((told history).insert Record.revisionAttribute revision))).get? name =
      (told (history ++ [item])).get? name
  fixed : ∀ history item, history ≠ [] → history ++ [item] <+: items →
    ∀ name, name ∉ schema.mutable →
      (told (history ++ [item])).get? name = (told history).get? name

namespace Folds

variable {revision : Value} {record : Record}

theorem get?_told (hmutable : Record.revisionAttribute ∉ schema.mutable) {name : String}
    (hname : name ∈ schema.mutable) :
    ((told history).insert Record.revisionAttribute revision).get? name =
      (told history).get? name :=
  OrderedMap.get?_insert_of_ne _ _ fun heq => hmutable (heq ▸ hname)

-- What is settled on is what is told by now.
theorem get?_of_settled (h : Folds schema fresh told items)
    (hmutable : Record.revisionAttribute ∉ schema.mutable) (hhistory : history ≠ [])
    (hsettled : schema.Settled (some ((told history).insert Record.revisionAttribute revision))
      (fresh item (some ((told history).insert Record.revisionAttribute revision))) record)
    {name : String} (hname : name ∈ schema.mutable) :
    record.get? name = (told (history ++ [item])).get? name := by
  have hstored : stored? (some ((told history).insert Record.revisionAttribute revision)) name =
      (told history).get? name := get?_told hmutable hname
  rw [← h.later history item revision hhistory name hname]
  apply hsettled.get?_of_plain hname
  · rw [hstored]
    exact h.plain history name
  · rw [h.later history item revision hhistory name hname]
    exact h.plain _ name

theorem told_of_same (h : Folds schema fresh told items)
    (hmutable : Record.revisionAttribute ∉ schema.mutable) (hhistory : history ≠ [])
    (hinitial : history ++ [item] <+: items)
    (halike : ∀ name ∈ schema.mutable, Difference.Alike
      (((told history).insert Record.revisionAttribute revision).get? name)
      ((fresh item (some ((told history).insert Record.revisionAttribute revision))).get? name)) :
    told (history ++ [item]) = told history := by
  apply OrderedMap.ext_get?
  intro name
  by_cases hname : name ∈ schema.mutable
  · have hsettled := h.get?_of_settled hmutable hhistory
      (fun name hname => .inr ⟨rfl, halike name hname⟩) hname
    rw [← hsettled, get?_told hmutable hname]
  · exact h.fixed history item hhistory hinitial name hname

theorem told_of_revised (h : Folds schema fresh told items)
    (hmutable : Record.revisionAttribute ∉ schema.mutable) (hhistory : history ≠ [])
    (hinitial : history ++ [item] <+: items)
    (hrevised : schema.Revised ((told history).insert Record.revisionAttribute revision)
      (fresh item (some ((told history).insert Record.revisionAttribute revision))) record)
    {next : Value} (hnext : record.get? Record.revisionAttribute = some next) :
    record = (told (history ++ [item])).insert Record.revisionAttribute next ∧
      told (history ++ [item]) ≠ told history := by
  constructor
  · apply OrderedMap.ext_get?
    intro name
    by_cases hrevision : name = Record.revisionAttribute
    · rw [hrevision, hnext, OrderedMap.get?_insert_self]
    · rw [OrderedMap.get?_insert_of_ne _ _ hrevision]
      by_cases hname : name ∈ schema.mutable
      · exact h.get?_of_settled hmutable hhistory hrevised.settled hname
      · rw [hrevised.others name hrevision hname, OrderedMap.get?_insert_of_ne _ _ hrevision,
          h.fixed history item hhistory hinitial name hname]
  · intro heq
    apply hrevised.news
    intro name hname
    rw [h.later history item revision hhistory name hname, heq, get?_told hmutable hname]
    exact .refl _

theorem retells (h : Folds schema fresh told items)
    (hmutable : Record.revisionAttribute ∉ schema.mutable)
    (hinitial : history ++ [item] <+: items) {stored after : Option Record}
    (hretells : Retells told history stored)
    (hleaves : schema.Leaves stored (some (fresh item stored)) after) :
    Retells told (history ++ [item]) after := by
  have hnonempty : history ++ [item] ≠ [] := by simp
  cases hretells with
  | nothing =>
    cases hleaves with
    | first =>
      rw [h.first item]
      exact .something hnonempty (by simp [countNews, Schema.baseRevision])
  | something hhistory hnews =>
    cases hleaves with
    | same _ _ halike =>
      have hsame := h.told_of_same hmutable hhistory hinitial halike
      rw [← hsame]
      refine .something hnonempty ?_
      rw [hnews, countNews_append, hsame]
      simp
    | news _ _ record hrevised hcounts =>
      obtain ⟨before, next, hbefore, hnext, hcount⟩ := hcounts
      obtain ⟨rfl, hdiffers⟩ := h.told_of_revised hmutable hhistory hinitial hrevised hnext
      rw [OrderedMap.get?_insert_self] at hbefore
      cases hbefore
      refine .something hnonempty ?_
      rw [hcount, hnews, countNews_append, if_pos ⟨hhistory, hdiffers⟩]
      rfl

end Folds

-- Under a key stands what a history tells.
def Environment.Recounts (e : Environment) (table : String) (key : Key) (told : List ι → Record)
    (history : List ι) : Prop :=
  ∃ revision : Int64, revision.toInt = countNews told history ∧ e.held table key =
    .ok (some ((told history).insert Record.revisionAttribute (.int revision)))

theorem Retells.isSome_iff {stored : Option Record} (h : Retells told history stored) :
    stored.isSome ↔ history ≠ [] := by
  cases h with
  | nothing => simp
  | something hhistory => simp [hhistory]

theorem Retells.recounts {stored : Option Record} {e : Environment} {table : String} {key : Key}
    (h : Retells told history stored) (hhistory : history ≠ [])
    (hheld : e.held table key = .ok stored) : e.Recounts table key told history := by
  cases h with
  | nothing => exact absurd rfl hhistory
  | something _ hnews => exact ⟨_, hnews, hheld⟩

theorem Folds.recounts {call : ι → Environment → Except SyncError Outcome × Environment} {key : Key}
    {e e' : Environment} (h : Folds schema fresh told items)
    (hmutable : Record.revisionAttribute ∉ schema.mutable) (hitems : items ≠ [])
    (hvacant : e.held schema.table key = .ok none)
    (hcalls : Procedure.Succession call schema.table key items e e')
    (hleaves : ∀ item ∈ items, ∀ stored e outcome e', e.held schema.table key = .ok stored →
      call item e = (.ok outcome, e') → ∃ after, e'.held schema.table key = .ok after ∧
        schema.Leaves stored (some (fresh item stored)) after) :
    e'.Recounts schema.table key told items := by
  obtain ⟨after, hafter, hretells⟩ : ∃ after, e'.held schema.table key = .ok after ∧
      Retells told items after := by
    refine hcalls.holds (Retells told) hvacant .nothing ?_
    intro history item stored e outcome e' hinitial hretells hheld hcall
    have hitem : item ∈ items := hinitial.subset (by simp)
    obtain ⟨after, hafter, hleaves⟩ := hleaves item hitem stored e outcome e' hheld hcall
    exact ⟨after, hafter, h.retells hmutable hinitial hretells hleaves⟩
  exact hretells.recounts hitems hafter

end Folds

section Attributes

variable {attributes : List (String × Option Value)}

theorem Record.plain_foldl {record : Record}
    (hrecord : ∀ name, ∀ value ∈ record.get? name, value.IsPlain)
    (h : ∀ a ∈ attributes, ∀ value ∈ a.2, value.IsPlain) (name : String) :
    ∀ value ∈ (attributes.foldl (fun record (name, value) => record.insertSome name value)
      record).get? name, value.IsPlain := by
  induction attributes generalizing record with
  | nil => exact hrecord name
  | cons first rest ih =>
    refine ih ?_ fun a ha => h a (List.mem_cons_of_mem first ha)
    intro other value hvalue
    rw [OrderedMap.get?_insertSome] at hvalue
    split at hvalue
    · rcases Option.or_eq_some_iff.mp hvalue with hsome | ⟨_, hsome⟩
      · exact h first (by simp) value hsome
      · exact hrecord _ value hsome
    · exact hrecord other value hvalue

theorem Record.plain_ofAttributes (h : ∀ a ∈ attributes, ∀ value ∈ a.2, value.IsPlain)
    (name : String) : ∀ value ∈ (Record.ofAttributes attributes).get? name, value.IsPlain :=
  Record.plain_foldl (by simp) h name

end Attributes

namespace ForwardHtlc

-- What a history of events tells of a forwarded payment: its outcome is that of the last
-- event, and what an event need not say is what any of them has said last.
def told (publicKey : Bytes) (history : List ForwardHtlc) : Record :=
  match history.getLast? with
  | none => ∅
  | some last => Record.ofAttributes
    [("in_channel", some (.text last.inChannel)),
     ("in_payment", some (.ofNat last.inPayment.toNat)),
     ("is_confirmed", some (.bool last.isConfirmed)),
     ("is_failed", some (.bool last.isFailed)),
     ("out_channel", some (.text last.outChannel)),
     ("out_payment", some (.ofNat last.outPayment.toNat)),
     ("public_key", some (.bytes publicKey)),
     ("updated_at", some (.text last.time)),
     ("external_failure", last.externalFailure.map .text),
     ("internal_failure", last.internalFailure.map .text),
     ("cltv_delta", (lastTold (·.cltvDelta) history).map .ofUInt32),
     ("fee_mtokens", (lastTold (·.feeMtokens) history).map .text),
     ("mtokens", (lastTold (·.mtokens) history).map .text),
     ("timeout", (lastTold (·.timeout) history).map .ofUInt32)]

def fresh (publicKey : Bytes) (htlc : ForwardHtlc) (stored : Option Record) : Record :=
  htlc.record publicKey (.ofNat htlc.inPayment.toNat) (.ofNat htlc.outPayment.toNat) stored

variable {publicKey : Bytes} {history items : List ForwardHtlc} {htlc : ForwardHtlc}

theorem fresh_none : htlc.fresh publicKey none = told publicKey [htlc] := by
  simp [fresh, record, told, Record.ofAttributes, OrderedMap.ofList, OrderedMap.insertSome_some,
    lastTold, stored?, Value.ofNat]

theorem fresh_told (hhistory : history ≠ []) (revision : Value) :
    htlc.fresh publicKey
        (some ((told publicKey history).insert Record.revisionAttribute revision)) =
      told publicKey (history ++ [htlc]) := by
  have hlast := List.getLast?_eq_some_getLast hhistory
  simp [fresh, record, told, hlast, Record.ofAttributes, OrderedMap.ofList,
    OrderedMap.insertSome_some, stored?, Value.ofNat, Record.revisionAttribute, Option.map_or]

theorem plain_told (publicKey : Bytes) (history : List ForwardHtlc) (name : String) :
    ∀ value ∈ (told publicKey history).get? name, value.IsPlain := by
  unfold told
  split
  · simp
  · apply Record.plain_ofAttributes
    simp [Value.IsPlain, Value.asList?, Value.ofNat, Value.ofUInt32]

theorem folds {localKey : String} {subject : Subject}
    (hsubject : ∀ htlc ∈ items, (Call.forwardHtlc htlc).subject localKey = subject) :
    Folds .forwardHtlc (fresh publicKey) (told publicKey) items where
  plain := plain_told publicKey
  first := fun _ => fresh_none
  later := fun _ _ revision hhistory _ _ => by rw [fresh_told hhistory]
  fixed := by
    intro history htlc hhistory hinitial name hname
    have hlast := List.getLast?_eq_some_getLast hhistory
    have hhtlc := hsubject htlc (hinitial.subset (by simp))
    have hearlier := hsubject _ (hinitial.subset (List.mem_append_left _ (List.getLast_mem hhistory)))
    rw [← hearlier] at hhtlc
    simp only [Schema.forwardHtlc, List.mem_cons, List.not_mem_nil, or_false, not_or] at hname
    simp only [Call.subject, Subject.forwardHtlc.injEq] at hhtlc
    simp [told, hlast, Record.ofAttributes, hname, hhtlc]

end ForwardHtlc

namespace PaymentHtlc

-- What a history of events tells of a payment that the node made.
def told (publicKey : Bytes) (history : List PaymentHtlc) : Record :=
  match history.getLast? with
  | none => ∅
  | some last => Record.ofAttributes
    [("is_confirmed", some (.bool last.isConfirmed)),
     ("is_failed", some (.bool last.isFailed)),
     ("out_channel", some (.text last.outChannel)),
     ("out_payment", some (.ofNat last.outPayment.toNat)),
     ("public_key", some (.bytes publicKey)),
     ("updated_at", some (.text last.time)),
     ("mtokens", (lastTold (·.mtokens) history).map .text),
     ("timeout", (lastTold (·.timeout) history).map .ofUInt32)]

def fresh (publicKey : Bytes) (htlc : PaymentHtlc) (stored : Option Record) : Record :=
  htlc.record publicKey (.ofNat htlc.outPayment.toNat) stored

variable {publicKey : Bytes} {history items : List PaymentHtlc} {htlc : PaymentHtlc}

theorem fresh_none : htlc.fresh publicKey none = told publicKey [htlc] := by
  simp [fresh, record, told, Record.ofAttributes, OrderedMap.ofList, OrderedMap.insertSome_some,
    lastTold, stored?, Value.ofNat]

theorem fresh_told (hhistory : history ≠ []) (revision : Value) :
    htlc.fresh publicKey
        (some ((told publicKey history).insert Record.revisionAttribute revision)) =
      told publicKey (history ++ [htlc]) := by
  have hlast := List.getLast?_eq_some_getLast hhistory
  simp [fresh, record, told, hlast, Record.ofAttributes, OrderedMap.ofList,
    OrderedMap.insertSome_some, stored?, Value.ofNat, Record.revisionAttribute, Option.map_or]

theorem plain_told (publicKey : Bytes) (history : List PaymentHtlc) (name : String) :
    ∀ value ∈ (told publicKey history).get? name, value.IsPlain := by
  unfold told
  split
  · simp
  · apply Record.plain_ofAttributes
    simp [Value.IsPlain, Value.asList?, Value.ofNat, Value.ofUInt32]

theorem folds {localKey : String} {subject : Subject}
    (hsubject : ∀ htlc ∈ items, (Call.paymentHtlc htlc).subject localKey = subject) :
    Folds .paymentHtlc (fresh publicKey) (told publicKey) items where
  plain := plain_told publicKey
  first := fun _ => fresh_none
  later := fun _ _ revision hhistory _ _ => by rw [fresh_told hhistory]
  fixed := by
    intro history htlc hhistory hinitial name hname
    have hlast := List.getLast?_eq_some_getLast hhistory
    have hhtlc := hsubject htlc (hinitial.subset (by simp))
    have hearlier := hsubject _ (hinitial.subset (List.mem_append_left _ (List.getLast_mem hhistory)))
    rw [← hearlier] at hhtlc
    simp only [Schema.paymentHtlc, List.mem_cons, List.not_mem_nil, or_false, not_or] at hname
    simp only [Call.subject, Subject.paymentHtlc.injEq] at hhtlc
    simp [told, hlast, Record.ofAttributes, hname, hhtlc]

end PaymentHtlc

namespace ReceiveHtlc

-- What a history of events tells of a payment that the node took. Its failures are those
-- of the first event, as no later one is asked for them.
def told (publicKey : Bytes) (history : List ReceiveHtlc) : Record :=
  match history.head?, history.getLast? with
  | some first, some last => Record.ofAttributes
    [("in_channel", some (.text last.inChannel)),
     ("in_payment", some (.ofNat last.inPayment.toNat)),
     ("is_confirmed", some (.bool last.isConfirmed)),
     ("is_failed", some (.bool last.isFailed)),
     ("public_key", some (.bytes publicKey)),
     ("updated_at", some (.text last.time)),
     ("external_failure", first.externalFailure.map .text),
     ("internal_failure", first.internalFailure.map .text)]
  | _, _ => ∅

def fresh (publicKey : Bytes) (htlc : ReceiveHtlc) (_ : Option Record) : Record :=
  htlc.record publicKey (.ofNat htlc.inPayment.toNat)

variable {publicKey : Bytes} {history items : List ReceiveHtlc} {htlc : ReceiveHtlc}

theorem fresh_none : htlc.fresh publicKey none = told publicKey [htlc] := by
  simp [fresh, record, told, Record.ofAttributes, OrderedMap.ofList, OrderedMap.insertSome_some,
    Value.ofNat]

theorem get?_fresh (hhistory : history ≠ []) (stored : Option Record) {name : String}
    (hname : name ∈ Schema.receiveHtlc.mutable) :
    (htlc.fresh publicKey stored).get? name = (told publicKey (history ++ [htlc])).get? name := by
  have hfirst := List.head?_eq_some_head hhistory
  simp only [Schema.receiveHtlc, List.mem_cons, List.not_mem_nil, or_false] at hname
  rcases hname with rfl | rfl | rfl
  all_goals simp [fresh, record, told, hfirst, Record.ofAttributes, OrderedMap.ofList]

theorem plain_told (publicKey : Bytes) (history : List ReceiveHtlc) (name : String) :
    ∀ value ∈ (told publicKey history).get? name, value.IsPlain := by
  unfold told
  split
  · apply Record.plain_ofAttributes
    simp [Value.IsPlain, Value.asList?, Value.ofNat]
  · simp

theorem folds {localKey : String} {subject : Subject}
    (hsubject : ∀ htlc ∈ items, (Call.receiveHtlc htlc).subject localKey = subject) :
    Folds .receiveHtlc (fresh publicKey) (told publicKey) items where
  plain := plain_told publicKey
  first := fun _ => fresh_none
  later := fun _ _ _ hhistory _ hname => get?_fresh hhistory _ hname
  fixed := by
    intro history htlc hhistory hinitial name hname
    have hlast := List.getLast?_eq_some_getLast hhistory
    have hhtlc := hsubject htlc (hinitial.subset (by simp))
    have hearlier := hsubject _ (hinitial.subset (List.mem_append_left _ (List.getLast_mem hhistory)))
    rw [← hearlier] at hhtlc
    have hfirst := List.head?_eq_some_head hhistory
    simp only [Schema.receiveHtlc, List.mem_cons, List.not_mem_nil, or_false, not_or] at hname
    simp only [Call.subject, Subject.receiveHtlc.injEq] at hhtlc
    simp [told, hfirst, hlast, Record.ofAttributes, hname, hhtlc]

end ReceiveHtlc

theorem Field.eq_of_index {entity field : String} {n : UInt64} {index : Int64}
    (h : Field.index entity field n = .ok index) : index = .ofNat n.toNat := by
  unfold Field.index at h
  split at h <;> cases h
  rfl

namespace Procedure

variable {answers : (q : Question) → Except String q.Answer} {key : Key} {localKey : String}
  {stored : Option Record} {outcome : Outcome} {publicKey : Bytes} {e e' : Environment}

theorem leaves_forwardHtlc {htlc : ForwardHtlc} (localKey : String)
    (hkey : Field.key .forwardHtlc ((Call.forwardHtlc htlc).identity localKey) = .ok key)
    (hpublicKey : Hex.decode htlc.publicKey = .ok publicKey)
    (hheld : e.held Schema.forwardHtlc.table key = .ok stored)
    (h : execute answers (forwardHtlc htlc) e = (.ok outcome, e')) :
    ∃ after, e'.held Schema.forwardHtlc.table key = .ok after ∧
      Schema.forwardHtlc.Leaves stored (some (htlc.fresh publicKey stored)) after := by
  obtain ⟨_, hhex, h⟩ := execute_ofExcept_eq_ok h
  obtain ⟨_, _, h⟩ := execute_ofExcept_eq_ok h
  obtain ⟨_, _, h⟩ := execute_ofExcept_eq_ok h
  obtain ⟨_, _, h⟩ := execute_ofExcept_eq_ok h
  obtain ⟨inPayment, hin, h⟩ := execute_ofExcept_eq_ok h
  obtain ⟨outPayment, hout, h⟩ := execute_ofExcept_eq_ok h
  obtain ⟨found, hfound, h⟩ := execute_ofExcept_eq_ok h
  cases hpublicKey.symm.trans (Field.decode_of_hex hhex)
  cases hkey.symm.trans hfound
  cases Field.eq_of_index hin
  cases Field.eq_of_index hout
  obtain ⟨e₁, hheld, hstorable, h⟩ := execute_load_of_held hheld h
  have hdrafts := htlc.drafts_record hstorable publicKey (.ofNat htlc.inPayment.toNat)
    (.ofNat htlc.outPayment.toNat)
  refine leaves_of_reconcile (by decide) ?_ ?_ hheld h
  · rintro _ ⟨⟩
    exact hdrafts.storable
  · rintro rfl _ ⟨⟩
    exact hdrafts.revision

theorem leaves_paymentHtlc {htlc : PaymentHtlc} (localKey : String)
    (hkey : Field.key .paymentHtlc ((Call.paymentHtlc htlc).identity localKey) = .ok key)
    (hpublicKey : Hex.decode htlc.publicKey = .ok publicKey)
    (hheld : e.held Schema.paymentHtlc.table key = .ok stored)
    (h : execute answers (paymentHtlc htlc) e = (.ok outcome, e')) :
    ∃ after, e'.held Schema.paymentHtlc.table key = .ok after ∧
      Schema.paymentHtlc.Leaves stored (some (htlc.fresh publicKey stored)) after := by
  obtain ⟨_, hhex, h⟩ := execute_ofExcept_eq_ok h
  obtain ⟨_, _, h⟩ := execute_ofExcept_eq_ok h
  obtain ⟨_, _, h⟩ := execute_ofExcept_eq_ok h
  obtain ⟨outPayment, hout, h⟩ := execute_ofExcept_eq_ok h
  obtain ⟨found, hfound, h⟩ := execute_ofExcept_eq_ok h
  cases hpublicKey.symm.trans (Field.decode_of_hex hhex)
  cases hkey.symm.trans hfound
  cases Field.eq_of_index hout
  obtain ⟨e₁, hheld, hstorable, h⟩ := execute_load_of_held hheld h
  have hdrafts := htlc.drafts_record hstorable publicKey (.ofNat htlc.outPayment.toNat)
  refine leaves_of_reconcile (by decide) ?_ ?_ hheld h
  · rintro _ ⟨⟩
    exact hdrafts.storable
  · rintro rfl _ ⟨⟩
    exact hdrafts.revision

theorem leaves_receiveHtlc {htlc : ReceiveHtlc} (localKey : String)
    (hkey : Field.key .receiveHtlc ((Call.receiveHtlc htlc).identity localKey) = .ok key)
    (hpublicKey : Hex.decode htlc.publicKey = .ok publicKey)
    (hheld : e.held Schema.receiveHtlc.table key = .ok stored)
    (h : execute answers (receiveHtlc htlc) e = (.ok outcome, e')) :
    ∃ after, e'.held Schema.receiveHtlc.table key = .ok after ∧
      Schema.receiveHtlc.Leaves stored (some (htlc.fresh publicKey stored)) after := by
  obtain ⟨_, hhex, h⟩ := execute_ofExcept_eq_ok h
  obtain ⟨_, _, h⟩ := execute_ofExcept_eq_ok h
  obtain ⟨_, _, h⟩ := execute_ofExcept_eq_ok h
  obtain ⟨inPayment, hin, h⟩ := execute_ofExcept_eq_ok h
  obtain ⟨found, hfound, h⟩ := execute_ofExcept_eq_ok h
  cases hpublicKey.symm.trans (Field.decode_of_hex hhex)
  cases hkey.symm.trans hfound
  cases Field.eq_of_index hin
  obtain ⟨e₁, hheld, _, h⟩ := execute_load_of_held hheld h
  have hdrafts := htlc.drafts_record publicKey (.ofNat htlc.inPayment.toNat)
  refine leaves_of_reconcile (by decide) ?_ ?_ hheld h
  · rintro _ ⟨⟩
    exact hdrafts.storable
  · rintro _ _ ⟨⟩
    exact hdrafts.revision

section Retold

variable {ι : Type} {schema : Schema} {procedure : ι → Procedure Outcome} {text : ι → String}
  {fresh : Bytes → ι → Option Record → Record} {told : Bytes → List ι → Record} {history : List ι}

-- The public key of all events is that of any of them.
theorem retold_of_leaves (hhistory : history ≠ [])
    (hvacant : e.held schema.table key = .ok none)
    (hcalls : Succession (fun item => execute answers (procedure item)) schema.table key history
      e e')
    (hmutable : Record.revisionAttribute ∉ schema.mutable)
    (hfolds : ∀ publicKey, Folds schema (fresh publicKey) (told publicKey) history)
    (hsame : ∀ item ∈ history, ∀ other ∈ history, text item = text other)
    (hhex : ∀ item ∈ history, ∀ e outcome e', execute answers (procedure item) e = (.ok outcome, e') →
      ∃ publicKey, Hex.decode (text item) = .ok publicKey)
    (hleaves : ∀ item ∈ history, ∀ publicKey, Hex.decode (text item) = .ok publicKey →
      ∀ stored e outcome e', e.held schema.table key = .ok stored →
      execute answers (procedure item) e = (.ok outcome, e') →
      ∃ after, e'.held schema.table key = .ok after ∧
        schema.Leaves stored (some (fresh publicKey item stored)) after) :
    ∃ publicKey, (∀ item ∈ history, Hex.decode (text item) = .ok publicKey) ∧
      e'.Recounts schema.table key (told publicKey) history := by
  obtain ⟨first, hfirst, e₁, outcome, e₂, hcall⟩ := hcalls.exists_call hhistory
  obtain ⟨publicKey, hpublicKey⟩ := hhex first hfirst e₁ outcome e₂ hcall
  have hdecode : ∀ item ∈ history, Hex.decode (text item) = .ok publicKey := by
    intro item hitem
    rw [hsame item hitem first hfirst]
    exact hpublicKey
  exact ⟨publicKey, hdecode, (hfolds publicKey).recounts hmutable hhistory hvacant hcalls
    fun item hitem => hleaves item hitem publicKey (hdecode item hitem)⟩

end Retold

section Kinds

variable {subject : Subject}

theorem forwardHtlc_retold {history : List ForwardHtlc} (hhistory : history ≠ [])
    (hsubject : ∀ htlc ∈ history, (Call.forwardHtlc htlc).subject localKey = subject)
    (hkey : Field.key subject.schema subject.parts = .ok key)
    (hvacant : e.held Schema.forwardHtlc.table key = .ok none)
    (hcalls : Succession (fun htlc => execute answers (forwardHtlc htlc))
      Schema.forwardHtlc.table key history e e') :
    ∃ publicKey, (∀ htlc ∈ history, Hex.decode htlc.publicKey = .ok publicKey) ∧
      e'.Recounts Schema.forwardHtlc.table key (ForwardHtlc.told publicKey) history := by
  refine retold_of_leaves hhistory hvacant hcalls (by decide)
    (fun _ => ForwardHtlc.folds hsubject) ?_ ?_ ?_
  · intro htlc hhtlc other hother
    have hsame := (hsubject htlc hhtlc).trans (hsubject other hother).symm
    simp only [Call.subject, Subject.forwardHtlc.injEq] at hsame
    exact hsame.1
  · intro htlc _ e outcome e' hcall
    obtain ⟨publicKey, hhex, _⟩ := execute_ofExcept_eq_ok hcall
    exact ⟨publicKey, Field.decode_of_hex hhex⟩
  · intro htlc hhtlc publicKey hpublicKey stored e outcome e' hheld hcall
    rw [← hsubject htlc hhtlc] at hkey
    exact leaves_forwardHtlc localKey hkey hpublicKey hheld hcall

theorem paymentHtlc_retold {history : List PaymentHtlc} (hhistory : history ≠ [])
    (hsubject : ∀ htlc ∈ history, (Call.paymentHtlc htlc).subject localKey = subject)
    (hkey : Field.key subject.schema subject.parts = .ok key)
    (hvacant : e.held Schema.paymentHtlc.table key = .ok none)
    (hcalls : Succession (fun htlc => execute answers (paymentHtlc htlc))
      Schema.paymentHtlc.table key history e e') :
    ∃ publicKey, (∀ htlc ∈ history, Hex.decode htlc.publicKey = .ok publicKey) ∧
      e'.Recounts Schema.paymentHtlc.table key (PaymentHtlc.told publicKey) history := by
  refine retold_of_leaves hhistory hvacant hcalls (by decide)
    (fun _ => PaymentHtlc.folds hsubject) ?_ ?_ ?_
  · intro htlc hhtlc other hother
    have hsame := (hsubject htlc hhtlc).trans (hsubject other hother).symm
    simp only [Call.subject, Subject.paymentHtlc.injEq] at hsame
    exact hsame.1
  · intro htlc _ e outcome e' hcall
    obtain ⟨publicKey, hhex, _⟩ := execute_ofExcept_eq_ok hcall
    exact ⟨publicKey, Field.decode_of_hex hhex⟩
  · intro htlc hhtlc publicKey hpublicKey stored e outcome e' hheld hcall
    rw [← hsubject htlc hhtlc] at hkey
    exact leaves_paymentHtlc localKey hkey hpublicKey hheld hcall

theorem receiveHtlc_retold {history : List ReceiveHtlc} (hhistory : history ≠ [])
    (hsubject : ∀ htlc ∈ history, (Call.receiveHtlc htlc).subject localKey = subject)
    (hkey : Field.key subject.schema subject.parts = .ok key)
    (hvacant : e.held Schema.receiveHtlc.table key = .ok none)
    (hcalls : Succession (fun htlc => execute answers (receiveHtlc htlc))
      Schema.receiveHtlc.table key history e e') :
    ∃ publicKey, (∀ htlc ∈ history, Hex.decode htlc.publicKey = .ok publicKey) ∧
      e'.Recounts Schema.receiveHtlc.table key (ReceiveHtlc.told publicKey) history := by
  refine retold_of_leaves hhistory hvacant hcalls (by decide)
    (fun _ => ReceiveHtlc.folds hsubject) ?_ ?_ ?_
  · intro htlc hhtlc other hother
    have hsame := (hsubject htlc hhtlc).trans (hsubject other hother).symm
    simp only [Call.subject, Subject.receiveHtlc.injEq] at hsame
    exact hsame.1
  · intro htlc _ e outcome e' hcall
    obtain ⟨publicKey, hhex, _⟩ := execute_ofExcept_eq_ok hcall
    exact ⟨publicKey, Field.decode_of_hex hhex⟩
  · intro htlc hhtlc publicKey hpublicKey stored e outcome e' hheld hcall
    rw [← hsubject htlc hhtlc] at hkey
    exact leaves_receiveHtlc localKey hkey hpublicKey hheld hcall

end Kinds

-- The record of a payment is the fold of its events: after any number of them it says what
-- they tell together, and counts those after the first that were news.
theorem htlc_retold (answers : (q : Question) → Except String q.Answer) (localKey : String)
    (subject : Subject) (key : Key) (e e' : Environment)
    (hkey : Field.key subject.schema subject.parts = .ok key)
    (hvacant : e.held subject.schema.table key = .ok none) :
    (∀ history : List ForwardHtlc, history ≠ [] →
      (∀ htlc ∈ history, (Call.forwardHtlc htlc).subject localKey = subject) →
      Succession (fun htlc => execute answers (forwardHtlc htlc)) Schema.forwardHtlc.table key
        history e e' →
      ∃ publicKey, (∀ htlc ∈ history, Hex.decode htlc.publicKey = .ok publicKey) ∧
        e'.Recounts Schema.forwardHtlc.table key (ForwardHtlc.told publicKey) history) ∧
    (∀ history : List PaymentHtlc, history ≠ [] →
      (∀ htlc ∈ history, (Call.paymentHtlc htlc).subject localKey = subject) →
      Succession (fun htlc => execute answers (paymentHtlc htlc)) Schema.paymentHtlc.table key
        history e e' →
      ∃ publicKey, (∀ htlc ∈ history, Hex.decode htlc.publicKey = .ok publicKey) ∧
        e'.Recounts Schema.paymentHtlc.table key (PaymentHtlc.told publicKey) history) ∧
    ∀ history : List ReceiveHtlc, history ≠ [] →
      (∀ htlc ∈ history, (Call.receiveHtlc htlc).subject localKey = subject) →
      Succession (fun htlc => execute answers (receiveHtlc htlc)) Schema.receiveHtlc.table key
        history e e' →
      ∃ publicKey, (∀ htlc ∈ history, Hex.decode htlc.publicKey = .ok publicKey) ∧
        e'.Recounts Schema.receiveHtlc.table key (ReceiveHtlc.told publicKey) history := by
  refine ⟨fun history hhistory hsubject => ?_, fun history hhistory hsubject => ?_,
    fun history hhistory hsubject => ?_⟩
  · obtain ⟨htlc, hhtlc⟩ := List.exists_mem_of_ne_nil history hhistory
    obtain rfl := hsubject htlc hhtlc
    exact forwardHtlc_retold hhistory hsubject hkey hvacant
  · obtain ⟨htlc, hhtlc⟩ := List.exists_mem_of_ne_nil history hhistory
    obtain rfl := hsubject htlc hhtlc
    exact paymentHtlc_retold hhistory hsubject hkey hvacant
  · obtain ⟨htlc, hhtlc⟩ := List.exists_mem_of_ne_nil history hhistory
    obtain rfl := hsubject htlc hhtlc
    exact receiveHtlc_retold hhistory hsubject hkey hvacant

theorem htlc_retold_forward :
    let first : ForwardHtlc :=
      { publicKey := "02", time := "t", inChannel := "1x1x1", inPayment := 1, outChannel := "2x2x2",
        outPayment := 3, externalFailure := some "x", mtokens := some "7" }
    let second : ForwardHtlc :=
      { first with time := "u", externalFailure := none, isConfirmed := true, mtokens := none }
    let subject := (Call.forwardHtlc first).subject ""
    let answers : (q : Question) → Except String q.Answer := fun _ => .error ""
    let once := execute answers (forwardHtlc first) (Environment.start Config.minimal 0 ∅)
    let twice := execute answers (forwardHtlc second) once.2
    ∃ key publicKey, Field.key subject.schema subject.parts = .ok key ∧
      Hex.decode "02" = .ok publicKey ∧
      twice.2.Recounts Schema.forwardHtlc.table key (ForwardHtlc.told publicKey)
        [first, second] := by
  intro first second subject answers once twice
  obtain ⟨key, hkey⟩ : ∃ key, Field.key subject.schema subject.parts = .ok key :=
    exists_of_isOk (by decide +kernel)
  have honce : once.1 = .ok (.created (ForwardHtlc.told [2] [first])) := by decide +kernel
  have htwice : twice.1 = .ok (.updated
      (OrderedMap.ofList [("external_failure", .text "x"), ("is_confirmed", .bool false),
        ("updated_at", .text "t")])
      (OrderedMap.ofList [("is_confirmed", .bool true), ("updated_at", .text "u")])
      ((ForwardHtlc.told [2] [first]).insert Record.revisionAttribute (.int 0))) := by
    decide +kernel
  have hfirst : Succession (fun htlc => execute answers (forwardHtlc htlc))
      Schema.forwardHtlc.table key ([] ++ [first]) (Environment.start Config.minimal 0 ∅) once.2 :=
    .step (.start _) rfl (Prod.fst_eq_iff.mp honce)
  have hsecond : Succession (fun htlc => execute answers (forwardHtlc htlc))
      Schema.forwardHtlc.table key ([first] ++ [second]) (Environment.start Config.minimal 0 ∅)
      twice.2 :=
    .step hfirst rfl (Prod.fst_eq_iff.mp htwice)
  have hretold := htlc_retold answers "" subject key (Environment.start Config.minimal 0 ∅) twice.2
    hkey rfl
  obtain ⟨publicKey, hdecode, hrecounts⟩ := hretold.1 [first, second] (by decide) (by decide) hsecond
  exact ⟨key, publicKey, hkey, hdecode first (by simp), hrecounts⟩

-- What made a payment that was taken fail is not news: the event that says so is accepted,
-- and the record is as if it had not.
theorem receive_failure_not_retold :
    let first : ReceiveHtlc :=
      { publicKey := "02", time := "t", inChannel := "1x1x1", inPayment := 1 }
    let last : ReceiveHtlc :=
      { first with time := "u", isFailed := true, externalFailure := some "x" }
    let answers : (q : Question) → Except String q.Answer := fun _ => .error ""
    let once := execute answers (receiveHtlc first) (Environment.start Config.minimal 0 ∅)
    let twice := execute answers (receiveHtlc last) once.2
    once.1.isOk = true ∧ twice.1.isOk = true ∧
      ((Field.key Schema.receiveHtlc ["02", "1x1x1", "1"]).toOption.bind fun key =>
        (twice.2.held Schema.receiveHtlc.table key).toOption).map (stored? · "external_failure") =
        some none ∧
      last.externalFailure ≠ none := by
  decide +kernel

end Procedure

end LightningRecords

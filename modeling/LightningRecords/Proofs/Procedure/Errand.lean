import LightningRecords.Proofs.Procedure.Repeat
import LightningRecords.Proofs.Store.Seats

namespace LightningRecords

namespace Procedure

-- What is to become of a record, and what is to be written for it, by what is stored and
-- what is made of it.
def verdict (schema : Schema) :
    Option Record → Option Record → Except SyncError (Outcome × Option Record)
  | _, none => .ok (.unchanged, none)
  | none, some fresh =>
    let record : Record := fresh.insert Record.revisionAttribute (.int Schema.baseRevision)
    .ok (.created (record.without Record.revisionAttribute), some record)
  | some original, some fresh =>
    if schema.isImmutable then .ok (.unchanged, none)
    else
      match mutableDifference schema original fresh with
      | none => .ok (.unchanged, none)
      | some difference => do
        let _ ← expectRevision schema.table original
        match difference.changes.apply original with
        | .ok record => .ok (.updated difference.previous difference.updated original, some record)
        | .error error => .error (.store (.invalid (.change error)))

end Procedure

-- What comes of a verdict in a store: the record is written if there is room for it, or
-- else the map grows.
def Environment.carry (e : Environment) (operation table : String) (key : Key) :
    Except SyncError (Outcome × Option Record) → Except SyncError Outcome × Environment
  | .error error => (.error error, e)
  | .ok (outcome, none) => (.ok outcome, e)
  | .ok (outcome, some record) =>
    if e.IsFullFor table key record then
      (.error (.store (.capacityExhausted operation (e.grow e.mapSize).mapSize)),
        e.grow e.mapSize)
    else (.ok outcome, e.deposit table key record)

namespace Procedure

section Verdicts

variable {answers : (q : Question) → Except String q.Answer} {schema : Schema} {key : Key}
  {stored fresh : Option Record} {original record : Record} {e : Environment}

theorem mismatch?_of_revision? {revision : Int64} (h : original.revision? = some revision) :
    original.mismatch? (OrderedMap.insert ∅ Record.revisionAttribute (.int revision)) = none := by
  have hentries : (OrderedMap.insert ∅ Record.revisionAttribute (.int revision) : Record).toList =
      [(Record.revisionAttribute, .int revision)] := rfl
  rw [Record.mismatch?, hentries, Option.map_eq_none_iff, List.find?_eq_none]
  rintro _ hentry
  cases List.mem_singleton.mp hentry
  simp [Record.get?_of_revision? h, Value.setEq]

theorem execute_create (fresh : Record) (hvalid : Environment.checkTable schema.table = .ok ())
    (hroom : e.HasRoom schema.table) (hheld : e.held schema.table key = .ok none) :
    execute answers (create schema key fresh) e =
      e.carry "put" schema.table key (verdict schema none (some fresh)) := by
  let written : Record := fresh.insert Record.revisionAttribute (.int Schema.baseRevision)
  rw [create, execute_request]
  simp only [Environment.serve, verdict, Environment.carry,
    Environment.put_eq_ite hvalid hroom hheld (by simp)]
  by_cases hfull : e.IsFullFor schema.table key written
  · simp only [written, if_pos hfull, StoreError.isFreshViolation, Bool.and_false,
      Bool.false_eq_true, if_false]
    rfl
  · simp only [written, if_neg hfull]
    rfl

theorem execute_revise (fresh : Record) (hvalid : Environment.checkTable schema.table = .ok ())
    (hroom : e.HasRoom schema.table) (hheld : e.held schema.table key = .ok (some original))
    (hmutable : schema.isImmutable = false) :
    execute answers (revise schema key original fresh) e =
      e.carry "update" schema.table key (verdict schema (some original) (some fresh)) := by
  simp only [verdict, hmutable, Bool.false_eq_true, if_false]
  cases hdifference : mutableDifference schema original fresh with
  | none =>
    rw [execute, revise_run_of_same hdifference]
    rfl
  | some difference =>
    cases hrevision : original.revision? with
    | none =>
      rw [execute, revise_run_of_unrevised hdifference hrevision]
      simp only [expectRevision, hrevision]
      rfl
    | some revision =>
      let expected : Record := OrderedMap.insert ∅ Record.revisionAttribute (.int revision)
      have hmatches : (some expected).bind original.mismatch? = none := mismatch?_of_revision? hrevision
      rw [execute, revise_run hdifference hrevision]
      simp only [expectRevision, hrevision, Interaction.run, Environment.serve, bind, Except.bind]
      cases happly : difference.changes.apply original with
      | error error =>
        rw [Environment.update_of_misfit hvalid hroom hheld hmatches happly]
        rfl
      | ok record =>
        rw [Environment.update_eq_ite hvalid hroom hheld hmatches happly, Environment.carry]
        split <;> rfl

-- A reconciliation does what the verdict says.
theorem execute_reconcile (hvalid : Environment.checkTable schema.table = .ok ())
    (hroom : e.HasRoom schema.table) (hheld : e.held schema.table key = .ok stored) :
    ∃ operation, execute answers (reconcile schema key stored fresh) e =
      e.carry operation schema.table key (verdict schema stored fresh) := by
  cases fresh with
  | none => cases stored <;> exact ⟨"get", rfl⟩
  | some fresh =>
    cases stored with
    | none => exact ⟨"put", execute_create fresh hvalid hroom hheld⟩
    | some original =>
      refine ⟨"update", ?_⟩
      cases hmutable : schema.isImmutable with
      | true =>
        simp only [reconcile, verdict, hmutable, if_true]
        rfl
      | false =>
        simp only [reconcile, hmutable, Bool.false_eq_true, if_false]
        exact execute_revise fresh hvalid hroom hheld hmutable

end Verdicts

end Procedure

theorem Environment.get_of_unreadable {e : Environment} {table : String} {key : Key}
    {error : StoreError} (hvalid : Environment.checkTable table = .ok ()) (hroom : e.HasRoom table)
    (hheld : e.held table key = .error error) : e.get table key = (.error error, e) := by
  have hopened := Environment.openTable_of_room hroom
  have hfound : Environment.findRow table (e.contents table) key = .error error := hheld
  rw [Environment.get, Environment.checked_of_valid _ hvalid]
  cases hrows : e.tables.get? table with
  | some rows =>
    rw [Environment.contents_of_some hrows] at hfound
    simp only [Environment.read, hopened, hrows, bind, Except.bind, hfound]
  | none =>
    rw [Environment.contents_of_none hrows] at hfound
    cases hfound

-- What is to be done about one record: it is made anew from what is stored of it.
structure Errand where
  schema : Schema
  key : Key
  build : Option Record → Except SyncError (Option Record)

namespace Errand

variable (answers : (q : Question) → Except String q.Answer) {a b : Errand}
  {outcome other : Outcome} {e e' e₁ e₂ : Environment} {stored fresh written : Option Record}
  {size : UInt64} {tables : List String}

def procedure (a : Errand) : Procedure Outcome := Procedure.observe a.schema a.key a.build

def plan (a : Errand) (stored : Option Record) : Except SyncError (Outcome × Option Record) := do
  Procedure.verdict a.schema stored (← a.build stored)

-- An errand that can be run in a store, and need not be run twice.
structure Sound (a : Errand) (tables : List String) : Prop where
  valid : Environment.checkTable a.schema.table = .ok ()
  room : a.schema.table ∈ tables
  mutable : Record.revisionAttribute ∉ a.schema.mutable
  steady : a.schema.Steady a.build

def SameRecord (a b : Errand) : Prop := a.schema.table = b.schema.table ∧ a.key = b.key

-- How an errand that is run once ends well: with an outcome, and in a store.
def Visits (a : Errand) (e : Environment) (outcome : Outcome) (e' : Environment) : Prop :=
  ∃ stored written, e.held a.schema.table a.key = .ok stored ∧
    a.plan stored = .ok (outcome, written) ∧
    (∀ record ∈ written, ¬e.IsFullFor a.schema.table a.key record) ∧
    e' = e.after a.schema.table a.key written

theorem execute_of_unreadable {error : StoreError} (h : a.Sound tables) (hroom : e.HasRooms tables)
    (hheld : e.held a.schema.table a.key = .error error) :
    Procedure.execute answers a.procedure e = (.error (.store error), e) := by
  rw [procedure, Procedure.observe, Procedure.execute_load,
    Environment.get_of_unreadable h.valid (hroom.hasRoom h.room) hheld]

-- An errand does what is planned for what is stored.
theorem execute_procedure (h : a.Sound tables) (hroom : e.HasRooms tables)
    (hheld : e.held a.schema.table a.key = .ok stored) :
    ∃ operation, Procedure.execute answers a.procedure e =
      (e.opened a.schema.table).carry operation a.schema.table a.key (a.plan stored) := by
  have hget := Environment.get_eq_opened h.valid (hroom.hasRoom h.room) hheld
  have hopened : (e.opened a.schema.table).held a.schema.table a.key = .ok stored := by
    rw [Environment.held, e.contents_opened]
    exact hheld
  have hstill : (e.opened a.schema.table).HasRoom a.schema.table :=
    (hroom.after h.room a.key none).hasRoom h.room
  rw [procedure, Procedure.observe, Procedure.execute_load, hget]
  simp only [Procedure.execute_ofExcept, plan]
  cases a.build stored with
  | error error => exact ⟨"get", rfl⟩
  | ok fresh => exact Procedure.execute_reconcile h.valid hstill hopened

theorem execute_eq_ok_iff (h : a.Sound tables) (hroom : e.HasRooms tables) :
    Procedure.execute answers a.procedure e = (.ok outcome, e') ↔ a.Visits e outcome e' := by
  cases hheld : e.held a.schema.table a.key with
  | error error =>
    rw [execute_of_unreadable answers h hroom hheld]
    constructor
    · intro hrun
      cases hrun
    · rintro ⟨stored, _, hstored, _⟩
      rw [hheld] at hstored
      cases hstored
  | ok stored =>
    obtain ⟨operation, hrun⟩ := execute_procedure answers h hroom hheld
    have hvisits : a.Visits e outcome e' ↔ ∃ written, a.plan stored = .ok (outcome, written) ∧
        (∀ record ∈ written, ¬e.IsFullFor a.schema.table a.key record) ∧
        e' = e.after a.schema.table a.key written := by
      simp [Visits, hheld]
    rw [hrun, hvisits]
    cases a.plan stored with
    | error error => simp [Environment.carry]
    | ok planned =>
      obtain ⟨planned, written⟩ := planned
      cases written with
      | none => simp [Environment.carry, Environment.after, eq_comm]
      | some record =>
        simp only [Environment.carry, e.isFullFor_opened, e.deposit_opened]
        by_cases hfull : e.IsFullFor a.schema.table a.key record
        · simp [hfull]
        · simp [hfull, Environment.after, eq_comm]

-- A run that fails leaves a larger map at most.
theorem execute_eq_error (h : a.Sound tables) (hroom : e.HasRooms tables) {error : SyncError}
    (hrun : Procedure.execute answers a.procedure e = (.error error, e')) :
    e'.ample = e.ample ∨ e'.ample = (e.opened a.schema.table).ample := by
  cases hheld : e.held a.schema.table a.key with
  | error error =>
    rw [execute_of_unreadable answers h hroom hheld] at hrun
    cases hrun
    exact .inl rfl
  | ok stored =>
    obtain ⟨operation, hcarry⟩ := execute_procedure answers h hroom hheld
    rw [hcarry] at hrun
    right
    cases hplan : a.plan stored with
    | error error =>
      rw [hplan] at hrun
      cases hrun
      rfl
    | ok planned =>
      obtain ⟨planned, written⟩ := planned
      rw [hplan] at hrun
      cases written with
      | none => cases hrun
      | some record =>
        simp only [Environment.carry] at hrun
        split at hrun
        · cases hrun
          exact Environment.ample_grow _
        · cases hrun

theorem written_eq_none (h : a.plan stored = .ok (.unchanged, written)) : written = none := by
  obtain ⟨fresh, _, h⟩ := bind_eq_ok_iff.mp h
  unfold Procedure.verdict at h
  split at h
  · cases h
    rfl
  · cases h
  · split at h
    · cases h
      rfl
    · split at h
      · cases h
        rfl
      · obtain ⟨_, _, h⟩ := bind_eq_ok_iff.mp h
        split at h <;> cases h

namespace Visits

theorem hasRooms (h : a.Visits e outcome e') (hroom : e.HasRooms tables) (ha : a.Sound tables) :
    e'.HasRooms tables := by
  obtain ⟨_, written, _, _, _, rfl⟩ := h
  exact hroom.after ha.room a.key written

theorem capacity_eq (h : a.Visits e outcome e') : e'.capacity = e.capacity := by
  obtain ⟨_, written, _, _, _, rfl⟩ := h
  exact e.capacity_after _ _ written

-- A map that has more room makes no difference to an errand that is done.
theorem ample (h : a.Visits e outcome e') : a.Visits e.ample outcome e'.ample := by
  obtain ⟨stored, written, hheld, hplan, hfits, rfl⟩ := h
  refine ⟨stored, written, hheld, hplan, fun record hrecord => ?_, e.ample_after _ _ _⟩
  have hlength := (Environment.not_isFullFor_iff.mp (hfits record hrecord)).1
  have hlargest : (UInt64.ofNat maxSize).toNat = maxSize := by decide
  have hsize : e.ample.mapSize.toNat = maxSize := hlargest
  have hless := e.mapSize.toNat_lt
  rw [Environment.isFullFor_iff fun _ _ => rfl, hsize, maxSize]
  omega

theorem of_opened (h : a.Visits (e.opened a.schema.table) outcome e') : a.Visits e outcome e' := by
  obtain ⟨stored, written, hheld, hplan, hfits, rfl⟩ := h
  refine ⟨stored, written, ?_, hplan, ?_, e.after_opened _ _ _⟩
  · rw [Environment.held, e.contents_opened] at hheld
    exact hheld
  · simpa only [e.isFullFor_opened] using hfits

-- Nor does any other map, if what was written fits it.
theorem remapped {capacity : Capacity} (h : a.Visits e outcome e')
    (hfits : ∀ bytes, (e'.contents a.schema.table).get? a.key.bytes = some bytes →
      bytes.length ≤ size.toNat)
    (hroom : capacity.isFull size e'.tables = false) :
    a.Visits (e.remapped size capacity) outcome (e'.remapped size capacity) := by
  obtain ⟨stored, written, hheld, hplan, _, rfl⟩ := h
  refine ⟨stored, written, hheld, hplan, ?_, (e.after_remapped _ _ _ _ _).symm⟩
  rintro record rfl
  rw [Environment.not_isFullFor_iff, e.deposit_remapped]
  refine ⟨hfits _ ?_, hroom⟩
  rw [Environment.after, Environment.contents_deposit, OrderedMap.get?_insert_self]

-- Errands for different records of one table may be run in any order, if only the length of
-- a record decides whether there is room for it.
theorem comm (hrule : e.capacity.IsByLength) (ha : a.Visits e outcome e₁)
    (hb : b.Visits e₁ other e₂) (htable : a.schema.table = b.schema.table) (hkey : a.key ≠ b.key) :
    ∃ e₃, b.Visits e other e₃ ∧ a.Visits e₃ outcome e₂ := by
  have hlater : e₁.capacity.IsByLength := ha.capacity_eq ▸ hrule
  obtain ⟨stored, written, hheld, hplan, hfits, rfl⟩ := ha
  obtain ⟨found, later, hfound, hnext, hroom, rfl⟩ := hb
  rw [e.held_after _ _ _ (fun h => hkey h.2.symm)] at hfound
  simp only [Environment.isFullFor_iff hlater, e.mapSize_after] at hroom
  simp only [Environment.isFullFor_iff hrule] at hfits
  refine ⟨e.after b.schema.table b.key later, ⟨found, later, hfound, hnext, ?_, rfl⟩, stored,
    written, ?_, hplan, ?_, ?_⟩
  · simpa only [Environment.isFullFor_iff hrule] using hroom
  · rwa [e.held_after _ _ _ (fun h => hkey h.2)]
  · have hbetween : (e.after b.schema.table b.key later).capacity.IsByLength := by
      rwa [e.capacity_after]
    simpa only [Environment.isFullFor_iff hbetween, e.mapSize_after] using hfits
  · rw [htable]
    exact e.after_after _ written later hkey

-- What is done under one key is still done after an errand for another record.
theorem persists (ha : a.Visits e .unchanged e) (hb : b.Visits e other e₁)
    (hne : ¬a.SameRecord b) : a.Visits e₁ .unchanged e₁ := by
  obtain ⟨stored, written, hheld, hplan, _, hsame⟩ := ha
  obtain ⟨_, later, _, _, _, rfl⟩ := hb
  cases written_eq_none hplan
  have hstill : e.opened a.schema.table = e := hsame.symm
  refine ⟨stored, none, ?_, hplan, by simp, ?_⟩
  · rwa [e.held_after _ _ _ hne]
  · exact (Environment.opened_after_of_opened hstill _ _ _).symm

-- An errand that was run is not news.
theorem again (h : a.Visits e outcome e') (ha : a.Sound tables) (hroom : e.HasRooms tables) :
    a.Visits e' .unchanged e' := by
  let answers : (q : Question) → Except String q.Answer := fun _ => .error ""
  have hafter := h.hasRooms hroom ha
  rw [← execute_eq_ok_iff answers ha hroom] at h
  rw [← execute_eq_ok_iff answers ha hafter]
  exact Procedure.observe_again ha.mutable ha.steady h

end Visits

end Errand

end LightningRecords

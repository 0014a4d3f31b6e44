import LightningRecords.Proofs.Procedure.Errand

namespace LightningRecords

-- Errands that are run one after another and end well.
inductive Sweeps : List Errand → Environment → List Outcome → Environment → Prop where
  | nil (e : Environment) : Sweeps [] e [] e
  | cons {a : Errand} {rest : List Errand} {outcome : Outcome} {outcomes : List Outcome}
      {e e₁ e' : Environment} (h : a.Visits e outcome e₁) (hrest : Sweeps rest e₁ outcomes e') :
      Sweeps (a :: rest) e (outcome :: outcomes) e'

namespace Errand

-- What an errand finds under its key.
def row (a : Errand) (e : Environment) : Option Bytes :=
  (e.contents a.schema.table).get? a.key.bytes

theorem Visits.unique {a : Errand} {outcome other : Outcome} {e e₁ e₂ : Environment}
    (h : a.Visits e outcome e₁) (h' : a.Visits e other e₂) : outcome = other ∧ e₁ = e₂ := by
  obtain ⟨stored, written, hheld, hplan, _, rfl⟩ := h
  obtain ⟨found, later, hfound, hnext, _, rfl⟩ := h'
  rw [hheld] at hfound
  cases hfound
  rw [hplan] at hnext
  cases hnext
  exact ⟨rfl, rfl⟩

theorem Visits.row_eq {a b : Errand} {outcome : Outcome} {e e₁ : Environment}
    (h : b.Visits e outcome e₁) (hne : ¬a.SameRecord b) : a.row e₁ = a.row e := by
  obtain ⟨_, written, _, _, _, rfl⟩ := h
  exact e.contents_after _ _ written fun hsame =>
    hne ⟨hsame.1, Environment.key_bytes_inj hsame.2⟩

end Errand

namespace Sweeps

variable {a : Errand} {errands others : List Errand} {outcomes later : List Outcome}
  {start e e' e₁ : Environment} {tables : List String}

-- Errands for one record are one errand.
def Apart (errands : List Errand) : Prop := ∀ a ∈ errands, ∀ b ∈ errands, a.SameRecord b → a = b

theorem Apart.of_cons (h : Apart (a :: errands)) : Apart errands := fun b hb c hc =>
  h b (List.mem_cons_of_mem a hb) c (List.mem_cons_of_mem a hc)

theorem Apart.head (h : Apart (a :: errands)) : ∀ b ∈ errands, a.SameRecord b → a = b :=
  fun b hb => h a List.mem_cons_self b (List.mem_cons_of_mem a hb)

theorem Apart.subset (h : Apart errands) (hsubset : others ⊆ errands) : Apart others :=
  fun a ha b hb => h a (hsubset ha) b (hsubset hb)

theorem length_eq (h : Sweeps errands e outcomes e') : outcomes.length = errands.length := by
  induction h with
  | nil => rfl
  | cons _ _ ih => simp [ih]

theorem append_iff (hlength : outcomes.length = errands.length) :
    Sweeps (errands ++ others) e (outcomes ++ later) e' ↔
      ∃ e₁, Sweeps errands e outcomes e₁ ∧ Sweeps others e₁ later e' := by
  induction errands generalizing e outcomes with
  | nil =>
    cases List.eq_nil_of_length_eq_zero hlength
    constructor
    · exact fun h => ⟨e, .nil e, h⟩
    · rintro ⟨_, ⟨⟩, h⟩
      exact h
  | cons a rest ih =>
    obtain ⟨outcome, outcomes, rfl⟩ := List.exists_cons_of_length_eq_add_one hlength
    have hrest := Nat.succ.inj hlength
    constructor
    · rintro (_ | ⟨hvisits, h⟩)
      obtain ⟨e₁, hfirst, hlater⟩ := (ih hrest).mp h
      exact ⟨e₁, .cons hvisits hfirst, hlater⟩
    · rintro ⟨e₁, ⟨⟩ | ⟨hvisits, hfirst⟩, hlater⟩
      exact .cons hvisits ((ih hrest).mpr ⟨e₁, hfirst, hlater⟩)

theorem hasRooms (h : Sweeps errands e outcomes e') (hroom : e.HasRooms tables)
    (hsound : ∀ a ∈ errands, a.Sound tables) : e'.HasRooms tables := by
  induction h with
  | nil => exact hroom
  | cons hvisits _ ih =>
    obtain ⟨ha, hrest⟩ := List.forall_mem_cons.mp hsound
    exact ih (hvisits.hasRooms hroom ha) hrest

theorem capacity_eq (h : Sweeps errands e outcomes e') : e'.capacity = e.capacity := by
  induction h with
  | nil => rfl
  | cons hvisits _ ih => rw [ih, hvisits.capacity_eq]

-- The order of errands for the records of a table does not matter. By induction on the
-- permutation: two errands next to each other are one, or they are for different records.
theorem perm {table : String} (hperm : errands.Perm others)
    (htable : ∀ a ∈ errands, a.schema.table = table) (hapart : Apart errands)
    (hrule : e.capacity.IsByLength) (h : Sweeps errands e outcomes e') :
    ∃ later, outcomes.Perm later ∧ Sweeps others e later e' := by
  induction hperm generalizing e outcomes with
  | nil => exact ⟨outcomes, .refl _, h⟩
  | cons a _ ih =>
    cases h with
    | cons hvisits hrest =>
      have hstill := hvisits.capacity_eq.symm ▸ hrule
      obtain ⟨later, hsame, hlater⟩ :=
        ih (List.forall_mem_cons.mp htable).2 hapart.of_cons hstill hrest
      exact ⟨_, hsame.cons _, hlater.cons hvisits⟩
  | swap a b rest =>
    have htables : b.schema.table = a.schema.table := by
      rw [htable b (by simp), htable a (by simp)]
    by_cases hkey : b.key = a.key
    · cases hapart b (by simp) a (by simp) ⟨htables, hkey⟩
      exact ⟨outcomes, .refl _, h⟩
    · cases h with
      | cons hb hrest =>
        cases hrest with
        | cons ha hrest =>
          obtain ⟨_, ha, hb⟩ := hb.comm hrule ha htables hkey
          exact ⟨_, .swap _ _ _, .cons ha (.cons hb hrest)⟩
  | trans hfirst _ ih ih' =>
    obtain ⟨between, hsame, hbetween⟩ := ih htable hapart hrule h
    have hsubset := hfirst.symm.subset
    obtain ⟨later, hagain, hlater⟩ :=
      ih' (fun a ha => htable a (hsubset ha)) (hapart.subset hsubset) hrule hbetween
    exact ⟨later, hsame.trans hagain, hlater⟩

-- What is done stays done, and its row is not touched again.
theorem persists (h : Sweeps errands e outcomes e') (hdone : a.Visits e .unchanged e)
    (hapart : ∀ b ∈ errands, a.SameRecord b → a = b) :
    a.Visits e' .unchanged e' ∧ a.row e' = a.row e := by
  induction h with
  | nil => exact ⟨hdone, rfl⟩
  | @cons b rest _ _ e e₁ e' hvisits _ ih =>
    obtain ⟨hb, hrest⟩ := List.forall_mem_cons.mp hapart
    by_cases hsame : a.SameRecord b
    · cases hb hsame
      obtain ⟨_, rfl⟩ := hvisits.unique hdone
      exact ih hdone hrest
    · obtain ⟨hlast, hrow⟩ := ih (hdone.persists hvisits hsame) hrest
      exact ⟨hlast, hrow.trans (hvisits.row_eq hsame)⟩

-- After a sweep there is nothing left to do.
theorem settled (h : Sweeps errands e outcomes e') (hroom : e.HasRooms tables)
    (hsound : ∀ a ∈ errands, a.Sound tables) (hapart : Apart errands) :
    ∀ a ∈ errands, a.Visits e' .unchanged e' := by
  induction h with
  | nil => simp
  | cons hvisits hrest ih =>
    obtain ⟨ha, hothers⟩ := List.forall_mem_cons.mp hsound
    have hlater := ih (hvisits.hasRooms hroom ha) hothers hapart.of_cons
    exact List.forall_mem_cons.mpr
      ⟨(hrest.persists (hvisits.again ha hroom) hapart.head).1, hlater⟩

theorem of_settled (h : ∀ a ∈ errands, a.Visits e .unchanged e) :
    Sweeps errands e (List.replicate errands.length .unchanged) e := by
  induction errands with
  | nil => exact .nil e
  | cons a rest ih =>
    obtain ⟨ha, hrest⟩ := List.forall_mem_cons.mp h
    exact .cons ha (ih hrest)

-- A sweep is the same on the map of a store, if everything fits it: as a row that was written
-- is not written again, all rows on the way are rows of that store or are there in the end.
theorem remapped (h : Sweeps errands e outcomes e') (hroom : e.HasRooms tables)
    (hsound : ∀ a ∈ errands, a.Sound tables) (hapart : Apart errands) (hfits : start.Fits e')
    (hmixes : start.Mixes e' e.tables) :
    Sweeps errands (e.remapped start.mapSize start.capacity) outcomes
      (e'.remapped start.mapSize start.capacity) := by
  induction h with
  | nil => exact .nil _
  | @cons a _ _ _ e e₁ e' hvisits hrest ih =>
    obtain ⟨ha, hothers⟩ := List.forall_mem_cons.mp hsound
    have hrow : a.row e' = a.row e₁ := (hrest.persists (hvisits.again ha hroom) hapart.head).2
    have hbetween : start.Mixes e' e₁.tables := by
      rw [Environment.mixes_tables_iff] at hmixes ⊢
      intro table key bytes hfound
      by_cases hsame : table = a.schema.table ∧ key = a.key.bytes
      · obtain ⟨rfl, rfl⟩ := hsame
        exact .inr (hrow.trans hfound)
      · obtain ⟨_, written, _, _, _, rfl⟩ := hvisits
        rw [e.contents_after _ _ written hsame] at hfound
        exact hmixes table key bytes hfound
    have hlength : ∀ bytes, a.row e₁ = some bytes → bytes.length ≤ start.mapSize.toNat :=
      fun bytes hfound => hfits.rows _ _ bytes (hrow.trans hfound)
    exact .cons (hvisits.remapped hlength (hfits.tables _ hbetween))
      (ih (hvisits.hasRooms hroom ha) hothers hapart.of_cons hfits hbetween)

end Sweeps

-- Sweeps one after another.
inductive Tours :
    List (List Errand) → Environment → List (List Outcome) → Environment → Prop where
  | nil (e : Environment) : Tours [] e [] e
  | cons {leg : List Errand} {rest : List (List Errand)} {outcomes : List Outcome}
      {later : List (List Outcome)} {e e₁ e' : Environment} (h : Sweeps leg e outcomes e₁)
      (hrest : Tours rest e₁ later e') : Tours (leg :: rest) e (outcomes :: later) e'

namespace Tours

variable {legs others : List (List Errand)} {outcomes : List (List Outcome)} {e e' : Environment}
  {start : Environment} {tables : List String}

theorem length_eq (h : Tours legs e outcomes e') :
    outcomes.map List.length = legs.map List.length := by
  induction h with
  | nil => rfl
  | cons hsweeps _ ih => simp [hsweeps.length_eq, ih]

theorem iff_sweeps (hlength : outcomes.map List.length = legs.map List.length) :
    Tours legs e outcomes e' ↔ Sweeps legs.flatten e outcomes.flatten e' := by
  induction legs generalizing e outcomes with
  | nil =>
    cases List.map_eq_nil_iff.mp hlength
    constructor
    · rintro ⟨⟩
      exact .nil _
    · rintro ⟨⟩
      exact .nil _
  | cons leg rest ih =>
    obtain ⟨first, later, rfl, hfirst, hlater⟩ := List.map_eq_cons_iff.mp hlength
    rw [List.flatten_cons, List.flatten_cons, Sweeps.append_iff hfirst]
    constructor
    · rintro (_ | ⟨hsweeps, hrest⟩)
      exact ⟨_, hsweeps, (ih hlater).mp hrest⟩
    · rintro ⟨e₁, hsweeps, hrest⟩
      exact .cons hsweeps ((ih hlater).mpr hrest)

theorem hasRooms (h : Tours legs e outcomes e') (hroom : e.HasRooms tables)
    (hsound : ∀ a ∈ legs.flatten, a.Sound tables) : e'.HasRooms tables := by
  rw [iff_sweeps h.length_eq] at h
  exact h.hasRooms hroom hsound

-- The order within each leg does not matter, if a leg is about one table.
theorem perm (hperm : List.Forall₂ List.Perm legs others)
    (htable : ∀ leg ∈ legs, ∃ table, ∀ a ∈ leg, a.schema.table = table)
    (hapart : Sweeps.Apart legs.flatten) (hrule : e.capacity.IsByLength)
    (h : Tours legs e outcomes e') :
    ∃ later, List.Forall₂ List.Perm outcomes later ∧ Tours others e later e' := by
  induction hperm generalizing e outcomes with
  | nil =>
    cases h
    exact ⟨[], .nil, .nil _⟩
  | @cons leg _ rest _ hleg _ ih =>
    obtain ⟨⟨table, hfirst⟩, hothers⟩ := List.forall_mem_cons.mp htable
    rw [List.flatten_cons] at hapart
    have hhere := hapart.subset (List.subset_append_left _ _)
    have hthere := hapart.subset (List.subset_append_right _ _)
    cases h with
    | cons hsweeps hrest =>
      have hstill := hsweeps.capacity_eq.symm ▸ hrule
      obtain ⟨swept, hsame, hswept⟩ := hsweeps.perm hleg hfirst hhere hrule
      obtain ⟨later, hagain, hlater⟩ := ih hothers hthere hstill hrest
      exact ⟨swept :: later, .cons hsame hagain, .cons hswept hlater⟩

theorem remapped (h : Tours legs e outcomes e') (hroom : e.HasRooms tables)
    (hsound : ∀ a ∈ legs.flatten, a.Sound tables) (hapart : Sweeps.Apart legs.flatten)
    (hfits : start.Fits e') (hmixes : start.Mixes e' e.tables) :
    Tours legs (e.remapped start.mapSize start.capacity) outcomes
      (e'.remapped start.mapSize start.capacity) := by
  have hlength := h.length_eq
  rw [iff_sweeps hlength] at h ⊢
  exact h.remapped hroom hsound hapart hfits hmixes

theorem settled (h : Tours legs e outcomes e') (hroom : e.HasRooms tables)
    (hsound : ∀ a ∈ legs.flatten, a.Sound tables) (hapart : Sweeps.Apart legs.flatten) :
    ∀ a ∈ legs.flatten, a.Visits e' .unchanged e' := by
  rw [iff_sweeps h.length_eq] at h
  exact h.settled hroom hsound hapart

theorem of_settled (h : ∀ a ∈ legs.flatten, a.Visits e .unchanged e) :
    Tours legs e (legs.map fun leg => List.replicate leg.length .unchanged) e := by
  induction legs with
  | nil => exact .nil e
  | cons leg rest ih =>
    rw [List.flatten_cons] at h
    obtain ⟨hleg, hrest⟩ := List.forall_mem_append.mp h
    exact .cons (.of_settled hleg) (ih hrest)

end Tours

end LightningRecords

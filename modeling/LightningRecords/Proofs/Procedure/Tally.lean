import LightningRecords.Procedure.Walk
import LightningRecords.Proofs.Procedure.Sweep

namespace LightningRecords

namespace Tally

variable {outcomes later : List Outcome}

def of (outcomes : List Outcome) : Tally := outcomes.foldl count {}

theorem count_comm (tally : Tally) (first second : Outcome) :
    (tally.count first).count second = (tally.count second).count first := by
  cases first <;> cases second <;> rfl

theorem of_perm (h : outcomes.Perm later) : of outcomes = of later :=
  List.Perm.foldl_eq' h (fun first _ second _ tally => count_comm tally first second) {}

theorem map_of_perm {counted others : List (List Outcome)}
    (h : List.Forall₂ List.Perm counted others) : counted.map of = others.map of := by
  induction h with
  | nil => rfl
  | cons hperm _ ih => rw [List.map_cons, List.map_cons, of_perm hperm, ih]

theorem total_count (tally : Tally) (outcome : Outcome) :
    (tally.count outcome).total = tally.total + 1 := by
  cases outcome <;> simp only [count, total] <;> omega

theorem total_foldl (tally : Tally) (outcomes : List Outcome) :
    (outcomes.foldl count tally).total = tally.total + outcomes.length := by
  induction outcomes generalizing tally with
  | nil => rfl
  | cons outcome rest ih =>
    rw [List.foldl_cons, ih, total_count, List.length_cons]
    omega

theorem total_of (outcomes : List Outcome) : (of outcomes).total = outcomes.length := by
  rw [of, total_foldl]
  exact Nat.zero_add _

theorem map_total_of (counted : List (List Outcome)) :
    (counted.map of).map total = counted.map List.length := by
  rw [List.map_map]
  exact List.map_congr_left fun outcomes _ => total_of outcomes

theorem of_replicate (n : Nat) : of (List.replicate n .unchanged) = ⟨0, 0, n⟩ := by
  induction n with
  | zero => rfl
  | succ n ih =>
    rw [List.replicate_succ', of, List.foldl_append, ← of, ih]
    rfl

end Tally

namespace Procedure

variable {answers : (q : Question) → Except String q.Answer} {policy : RetryPolicy}
  {draw : Nat → Nat} {p : Procedure Outcome} {a : Errand} {outcome : Outcome}
  {e e' : Environment} {tables : List String} {left : Nat}

section Retried

-- What a run comes to that has so many more attempts.
def attempted (answers : (q : Question) → Except String q.Answer) (policy : RetryPolicy)
    (draw : Nat → Nat) (p : Procedure Outcome) (left : Nat) (e : Environment) :
    Except SyncError Outcome × Environment :=
  (attempts policy draw (fun delay => .request (.pause delay) .done) p.run left).run
    (Environment.serve answers) e

theorem attempted_of_ok (h : execute answers p e = (.ok outcome, e')) :
    attempted answers policy draw p left e = (.ok outcome, e') := by
  have hrun : p.run.run (Environment.serve answers) e = (.ok outcome, e') := h
  rw [attempted, attempts]
  refine (Interaction.run_bind _ p.run _ e).trans ?_
  rw [hrun]
  rfl

-- As nobody else writes in between, a pause is nothing.
theorem attempted_of_error {error : SyncError} (h : execute answers p e = (.error error, e')) :
    attempted answers policy draw p left e =
      if error.isRetryable then
        match left with
        | 0 => (.error (.retriesExhausted policy.maxAttempts error), e')
        | fewer + 1 => attempted answers policy draw p fewer e'
      else (.error error, e') := by
  have hrun : p.run.run (Environment.serve answers) e = (.error error, e') := h
  unfold attempted
  rw [attempts]
  refine (Interaction.run_bind _ p.run _ e).trans ?_
  rw [hrun]
  simp only
  cases error.isRetryable with
  | false => rfl
  | true =>
    cases left with
    | zero => rfl
    | succ fewer => cases error.isCapacity <;> rfl

theorem attempted_step (h : attempted answers policy draw p left e = (.ok outcome, e')) :
    execute answers p e = (.ok outcome, e') ∨
      ∃ fewer < left, ∃ error e₁, execute answers p e = (.error error, e₁) ∧
        attempted answers policy draw p fewer e₁ = (.ok outcome, e') := by
  cases hrun : execute answers p e with
  | mk result after =>
    cases result with
    | ok outcome =>
      rw [attempted_of_ok hrun] at h
      exact .inl h
    | error error =>
      rw [attempted_of_error hrun] at h
      split at h
      · cases left with
        | zero => cases h
        | succ fewer => exact .inr ⟨fewer, Nat.lt_succ_self fewer, error, after, rfl, h⟩
      · cases h

theorem execute_retried (hpolicy : policy.validate = .ok ()) :
    execute answers (retried policy draw p) e =
      attempted answers policy draw p (policy.maxAttempts.toNat - 1) e := by
  simp only [execute, retried, ExceptT.run_mk, retry, hpolicy, attempted]

theorem retried_eq_ok (h : execute answers (retried policy draw p) e = (.ok outcome, e')) :
    policy.validate = .ok () ∧
      attempted answers policy draw p (policy.maxAttempts.toNat - 1) e = (.ok outcome, e') := by
  cases hpolicy : policy.validate with
  | ok => exact ⟨rfl, (execute_retried hpolicy).symm.trans h⟩
  | error error =>
    simp only [execute, retried, ExceptT.run_mk, retry, hpolicy] at h
    cases h

-- A run that ends well does so in one of its attempts.
theorem exists_of_retried (h : execute answers (retried policy draw p) e = (.ok outcome, e')) :
    ∃ e₁, execute answers p e₁ = (.ok outcome, e') := by
  replace h := (retried_eq_ok h).2
  generalize policy.maxAttempts.toNat - 1 = left at h
  induction left using Nat.strong_induction_on generalizing e with
  | _ left ih =>
    rcases attempted_step h with hlast | ⟨fewer, hless, _, _, _, hlater⟩
    · exact ⟨e, hlast⟩
    · exact ih fewer hless hlater

end Retried

section Errands

-- An errand does what a procedure does, and can be run among these tables.
structure Fulfils (answers : (q : Question) → Except String q.Answer) (tables : List String)
    (p : Procedure Outcome) (a : Errand) : Prop where
  sound : a.Sound tables
  same : ∀ e, execute answers p e = execute answers a.procedure e

theorem Fulfils.execute_iff (h : Fulfils answers tables p a) (hroom : e.HasRooms tables) :
    execute answers p e = (.ok outcome, e') ↔ a.Visits e outcome e' := by
  rw [h.same, a.execute_eq_ok_iff answers h.sound hroom]

theorem Fulfils.retried_of_visits (h : Fulfils answers tables p a) (hroom : e.HasRooms tables)
    (hpolicy : policy.validate = .ok ()) (hvisits : a.Visits e outcome e') :
    execute answers (retried policy draw p) e = (.ok outcome, e') := by
  rw [execute_retried hpolicy, attempted_of_ok ((h.execute_iff hroom).mpr hvisits)]

-- By induction on the attempts that are left: one that fails only leaves a larger map.
theorem Fulfils.visits_of_retried (h : Fulfils answers tables p a) (hroom : e.HasRooms tables)
    (hrun : execute answers (retried policy draw p) e = (.ok outcome, e')) :
    a.Visits e.ample outcome e'.ample := by
  replace hrun := (retried_eq_ok hrun).2
  generalize policy.maxAttempts.toNat - 1 = left at hrun
  induction left using Nat.strong_induction_on generalizing e with
  | _ left ih =>
    rcases attempted_step hrun with hlast | ⟨fewer, hless, error, e₁, hfails, hlater⟩
    · exact ((h.execute_iff hroom).mp hlast).ample
    · rw [h.same] at hfails
      rcases a.execute_eq_error answers h.sound hroom hfails with hsame | hsame
      · have hstill : e₁.HasRooms tables := by
          rwa [← Environment.hasRooms_ample, hsame]
        exact hsame ▸ ih fewer hless hstill hlater
      · have hstill : e₁.HasRooms tables := by
          rw [← Environment.hasRooms_ample, hsame]
          exact hroom.after h.sound.room a.key none
        have hopened : e₁.ample = e.ample.opened a.schema.table :=
          hsame.trans (e.ample_after a.schema.table a.key none)
        exact .of_opened (hopened ▸ ih fewer hless hstill hlater)

end Errands

section Series

variable {ι : Type} {visit : ι → Procedure Outcome} {errand : ι → Errand} {series : List ι}
  {outcomes : List Outcome} {count counted : Tally}

-- Calls that are made one after another, and what is counted of them so far.
def counting (visit : ι → Procedure Outcome) (series : List ι) (count : Tally) :
    Procedure Tally :=
  series.foldlM (fun count member => do return count.count (← visit member)) count

theorem counting_cons (member : ι) (series : List ι) :
    execute answers (counting visit (member :: series) count) e = (.ok counted, e') ↔
      ∃ outcome e₁, execute answers (visit member) e = (.ok outcome, e₁) ∧
        execute answers (counting visit series (count.count outcome)) e₁ = (.ok counted, e') := by
  have hcons : counting visit (member :: series) count = (visit member >>= fun outcome =>
      counting visit series (count.count outcome)) := by
    rw [counting, List.foldlM_cons, bind_assoc]
    rfl
  rw [hcons, execute_bind_eq_ok_iff]

-- Calls that end well are a sweep, on a map that is large enough.
theorem sweeps_of_counting (hfulfils : ∀ m ∈ series, Fulfils answers tables (visit m) (errand m))
    (hroom : e.HasRooms tables)
    (h : execute answers (counting (fun m => retried policy draw (visit m)) series count) e =
      (.ok counted, e')) :
    ∃ outcomes, Sweeps (series.map errand) e.ample outcomes e'.ample ∧
      counted = outcomes.foldl Tally.count count := by
  induction series generalizing count e with
  | nil =>
    cases h
    exact ⟨[], .nil _, rfl⟩
  | cons member rest ih =>
    obtain ⟨hfirst, hothers⟩ := List.forall_mem_cons.mp hfulfils
    obtain ⟨outcome, e₁, hrun, hlater⟩ := (counting_cons member rest).mp h
    have hvisits := hfirst.visits_of_retried hroom hrun
    have hstill : e₁.HasRooms tables := hvisits.hasRooms hroom hfirst.sound
    obtain ⟨outcomes, hsweeps, hcounted⟩ := ih hothers hstill hlater
    exact ⟨outcome :: outcomes, .cons hvisits hsweeps, hcounted⟩

theorem counting_of_sweeps
    (hready : ∀ m ∈ series, policy.validate = .ok () ∧ Fulfils answers tables (visit m) (errand m))
    (hroom : e.HasRooms tables) (h : Sweeps (series.map errand) e outcomes e') :
    execute answers (counting (fun m => retried policy draw (visit m)) series count) e =
      (.ok (outcomes.foldl Tally.count count), e') := by
  induction series generalizing count e outcomes with
  | nil =>
    cases h
    rfl
  | cons member rest ih =>
    obtain ⟨⟨hpolicy, hfirst⟩, hothers⟩ := List.forall_mem_cons.mp hready
    cases h with
    | cons hvisits hsweeps =>
      have hstill := hvisits.hasRooms hroom hfirst.sound
      exact (counting_cons member rest).mpr ⟨_, _, hfirst.retried_of_visits hroom hpolicy hvisits,
        ih hothers hstill hsweeps⟩

-- None of the calls fails, then.
theorem of_counting
    (h : execute answers (counting (fun m => retried policy draw (visit m)) series count) e =
      (.ok counted, e')) :
    ∀ m ∈ series, policy.validate = .ok () ∧
      ∃ e outcome e', execute answers (visit m) e = (.ok outcome, e') := by
  induction series generalizing count e with
  | nil => simp
  | cons member rest ih =>
    obtain ⟨outcome, e₁, hrun, hlater⟩ := (counting_cons member rest).mp h
    obtain ⟨before, hbefore⟩ := exists_of_retried hrun
    exact List.forall_mem_cons.mpr
      ⟨⟨(retried_eq_ok hrun).1, before, outcome, e₁, hbefore⟩, ih hlater⟩

theorem tally_map {κ : Type} (visit : κ → Procedure Outcome) (f : ι → κ) (series : List ι) :
    tally visit (series.map f) = tally (fun member => visit (f member)) series := by
  simp only [tally, List.foldlM_map]

end Series

section Legs

variable {ι : Type} {visit : ι → Procedure Outcome} {errand : ι → Errand} {leg : List ι}
  {legs : List (List ι)} {outcomes : List (List Outcome)} {tally : Tally} {tallies : List Tally}

-- Calls for one series after another, each of which is counted.
def tour (visit : ι → Procedure Outcome) : List (List ι) → Procedure (List Tally)
  | [] => return []
  | leg :: rest => do
    let tally ← Procedure.tally visit leg
    return tally :: (← tour visit rest)

theorem tour_cons : execute answers (tour visit (leg :: legs)) e = (.ok tallies, e') ↔
    ∃ tally e₁ later, execute answers (Procedure.tally visit leg) e = (.ok tally, e₁) ∧
      execute answers (tour visit legs) e₁ = (.ok later, e') ∧ tallies = tally :: later := by
  rw [tour, execute_bind_eq_ok_iff]
  simp only [execute_bind_eq_ok_iff]
  constructor
  · rintro ⟨tally, e₁, hleg, later, _, hrest, ⟨⟩⟩
    exact ⟨tally, e₁, later, hleg, hrest, rfl⟩
  · rintro ⟨tally, e₁, later, hleg, hrest, rfl⟩
    exact ⟨tally, e₁, hleg, later, e', hrest, rfl⟩

theorem tours_of_tour
    (hfulfils : ∀ m ∈ legs.flatten, Fulfils answers tables (visit m) (errand m))
    (hroom : e.HasRooms tables)
    (h : execute answers (tour (fun m => retried policy draw (visit m)) legs) e =
      (.ok tallies, e')) :
    ∃ outcomes, Tours (legs.map (List.map errand)) e.ample outcomes e'.ample ∧
      tallies = outcomes.map Tally.of := by
  induction legs generalizing e tallies with
  | nil =>
    cases h
    exact ⟨[], .nil _, rfl⟩
  | cons leg rest ih =>
    rw [List.flatten_cons] at hfulfils
    obtain ⟨hhere, hothers⟩ := List.forall_mem_append.mp hfulfils
    obtain ⟨tally, e₁, later, hleg, hrest, rfl⟩ := tour_cons.mp h
    obtain ⟨outcomes, hsweeps, rfl⟩ := sweeps_of_counting hhere hroom hleg
    have hsound : ∀ a ∈ leg.map errand, a.Sound tables :=
      List.forall_mem_map.mpr fun m hm => (hhere m hm).sound
    have hstill : e₁.HasRooms tables := hsweeps.hasRooms hroom hsound
    obtain ⟨others, htours, rfl⟩ := ih hothers hstill hrest
    exact ⟨outcomes :: others, .cons hsweeps htours, rfl⟩

theorem tour_of_tours
    (hready : ∀ m ∈ legs.flatten,
      policy.validate = .ok () ∧ Fulfils answers tables (visit m) (errand m))
    (hroom : e.HasRooms tables) (h : Tours (legs.map (List.map errand)) e outcomes e') :
    execute answers (tour (fun m => retried policy draw (visit m)) legs) e =
      (.ok (outcomes.map Tally.of), e') := by
  induction legs generalizing e outcomes with
  | nil =>
    cases h
    rfl
  | cons leg rest ih =>
    rw [List.flatten_cons] at hready
    obtain ⟨hhere, hothers⟩ := List.forall_mem_append.mp hready
    have hsound : ∀ a ∈ leg.map errand, a.Sound tables :=
      List.forall_mem_map.mpr fun m hm => (hhere m hm).2.sound
    cases h with
    | cons hsweeps hrest =>
      have hstill := hsweeps.hasRooms hroom hsound
      exact tour_cons.mpr ⟨_, _, _, counting_of_sweeps hhere hroom hsweeps,
        ih hothers hstill hrest, rfl⟩

theorem of_tour
    (h : execute answers (tour (fun m => retried policy draw (visit m)) legs) e =
      (.ok tallies, e')) :
    ∀ m ∈ legs.flatten, policy.validate = .ok () ∧
      ∃ e outcome e', execute answers (visit m) e = (.ok outcome, e') := by
  induction legs generalizing e tallies with
  | nil => simp
  | cons leg rest ih =>
    obtain ⟨tally, e₁, later, hleg, hrest, rfl⟩ := tour_cons.mp h
    rw [List.flatten_cons]
    exact List.forall_mem_append.mpr ⟨of_counting hleg, ih hrest⟩

end Legs

end Procedure

end LightningRecords

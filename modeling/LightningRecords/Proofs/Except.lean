namespace LightningRecords

variable {ε α β : Type}

theorem bind_eq_ok_iff {x : Except ε α} {f : α → Except ε β} {b : β} :
    x >>= f = .ok b ↔ ∃ a, x = .ok a ∧ f a = .ok b := by
  constructor
  · intro h
    cases x with
    | error e => cases h
    | ok a => exact ⟨a, rfl, h⟩
  · rintro ⟨a, rfl, h⟩
    exact h

theorem bind_eq_error_iff {x : Except ε α} {f : α → Except ε β} {e : ε} :
    x >>= f = .error e ↔ x = .error e ∨ ∃ a, x = .ok a ∧ f a = .error e := by
  constructor
  · intro h
    cases x with
    | error e' =>
      cases h
      exact .inl rfl
    | ok a => exact .inr ⟨a, rfl, h⟩
  · rintro (rfl | ⟨a, rfl, h⟩)
    · rfl
    · exact h

theorem exists_of_isOk {x : Except ε α} (h : x.isOk = true) : ∃ a, x = .ok a := by
  cases x with
  | error e => cases h
  | ok a => exact ⟨a, rfl⟩

theorem eq_of_map_const {x : Except ε α} {b b' : β} (h : x.map (fun _ => b) = .ok b') : b = b' := by
  cases x <;> cases h
  rfl

theorem exists_of_mapM_eq_error {f : α → Except ε β} {items : List α} {e : ε}
    (h : items.mapM f = .error e) : ∃ item ∈ items, f item = .error e := by
  induction items with
  | nil => cases h
  | cons item rest ih =>
    rw [List.mapM_cons] at h
    rcases bind_eq_error_iff.mp h with hitem | ⟨_, _, h⟩
    · exact ⟨item, by simp, hitem⟩
    · rcases bind_eq_error_iff.mp h with hrest | ⟨_, _, h⟩
      · obtain ⟨other, hother, herror⟩ := ih hrest
        exact ⟨other, List.mem_cons_of_mem item hother, herror⟩
      · cases h

theorem forM_eq_ok {f : α → Except ε Unit} {items : List α} (h : items.forM f = .ok ()) :
    ∀ item ∈ items, f item = .ok () := by
  induction items with
  | nil => simp
  | cons item rest ih =>
    obtain ⟨_, hitem, hrest⟩ := bind_eq_ok_iff.mp h
    exact List.forall_mem_cons.mpr ⟨hitem, ih hrest⟩

theorem forM_of_all_ok {f : α → Except ε Unit} {items : List α} (h : ∀ item ∈ items, f item = .ok ()) :
    items.forM f = .ok () := by
  induction items with
  | nil => rfl
  | cons item rest ih =>
    obtain ⟨hitem, hrest⟩ := List.forall_mem_cons.mp h
    exact bind_eq_ok_iff.mpr ⟨(), hitem, ih hrest⟩

theorem mapM_of_all_ok {f : α → Except ε β} {items : List α} {results : List β}
    (h : items.map f = results.map .ok) : items.mapM f = .ok results := by
  induction items generalizing results with
  | nil =>
    cases results with
    | nil => rfl
    | cons result rest => cases h
  | cons item rest ih =>
    cases results with
    | nil => cases h
    | cons result results =>
      obtain ⟨hitem, hrest⟩ := List.cons_eq_cons.mp h
      rw [List.mapM_cons, hitem, ih hrest]
      rfl

-- Whatever stands behind the first item that fails does not matter.
theorem mapM_of_first_error {f : α → Except ε β} {before after : List α} {item : α} {e : ε}
    (hbefore : ∀ a ∈ before, ∃ b, f a = .ok b) (hitem : f item = .error e) :
    (before ++ item :: after).mapM f = .error e := by
  induction before with
  | nil =>
    rw [List.nil_append, List.mapM_cons, hitem]
    rfl
  | cons a rest ih =>
    obtain ⟨b, hb⟩ := hbefore a (by simp)
    have hrest := ih fun a ha => hbefore a (List.mem_cons_of_mem _ ha)
    rw [List.cons_append, List.mapM_cons, hb, hrest]
    rfl

theorem exists_of_optionMapM_eq_ok {f : α → Except ε β} {item : Option α} {result : Option β}
    (h : item.mapM f = .ok result) : ∀ b ∈ result, ∃ a ∈ item, f a = .ok b := by
  cases item with
  | none =>
    cases h
    simp
  | some a =>
    obtain ⟨b, hb, h⟩ := bind_eq_ok_iff.mp h
    cases h
    rintro _ ⟨⟩
    exact ⟨a, rfl, hb⟩

-- Told beforehand: whether an answer is an error, and which one.
def Tells (flaw : Option ε) (answer : Except ε α) : Prop :=
  ∀ e, answer = .error e ↔ flaw = some e

section Tells

variable {flaw later : Option ε} {answer : Except ε α}

theorem tells_ok (a : α) : Tells none (.ok a : Except ε α) := by
  intro e
  simp

theorem tells_error (e : ε) : Tells (some e) (.error e : Except ε α) := by
  intro e'
  simp

theorem Tells.exists_ok (h : Tells none answer) : ∃ a, answer = .ok a := by
  cases answer with
  | error e => cases (h e).mp rfl
  | ok a => exact ⟨a, rfl⟩

theorem Tells.eq_none (h : Tells flaw answer) {a : α} (ha : answer = .ok a) : flaw = none := by
  rw [Option.eq_none_iff_forall_ne_some]
  intro e he
  cases ha.symm.trans ((h e).mpr he)

theorem Tells.map (h : Tells flaw answer) (f : α → β) : Tells flaw (answer.map f) := by
  intro e
  rw [← h e]
  cases answer <;> simp [Except.map]

theorem Tells.bind (h : Tells flaw answer) {next : α → Except ε β}
    (hnext : ∀ a, Tells later (next a)) : Tells (flaw.or later) (answer >>= next) := by
  intro e
  cases answer with
  | error found =>
    rw [(h found).mp rfl]
    exact tells_error found e
  | ok a =>
    rw [h.eq_none rfl]
    exact hnext a e

-- A fold fails as the first of its steps does that is told to fail, whatever state it
-- is in by then.
theorem tells_foldlM {step : β → α → Except ε β} {flaw? : α → Option ε}
    (h : ∀ state item, Tells (flaw? item) (step state item)) (items : List α) (start : β) :
    Tells (items.findSome? flaw?) (items.foldlM step start) := by
  induction items generalizing start with
  | nil => exact tells_ok start
  | cons item rest ih =>
    rw [List.foldlM_cons, ← List.singleton_append, List.findSome?_append,
      List.findSome?_singleton]
    exact (h start item).bind ih

end Tells

end LightningRecords

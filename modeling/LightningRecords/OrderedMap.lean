namespace LightningRecords

-- Finite maps whose entries stand in ascending key order, each key once. Two
-- maps with the same values under the same keys are therefore the same map.
structure OrderedMap {κ : Type} (cmp : κ → κ → Ordering) (α : Type) where
  entries : List (κ × α)
  ascending : entries.Pairwise fun a b => cmp a.1 b.1 = .lt

namespace OrderedMap

variable {κ α β : Type} {cmp : κ → κ → Ordering}

instance [DecidableEq κ] [DecidableEq α] : DecidableEq (OrderedMap cmp α) := fun a b =>
  if h : a.entries = b.entries then .isTrue (by cases a; cases b; simp_all)
  else .isFalse fun e => h (congrArg entries e)

def empty : OrderedMap cmp α := ⟨[], .nil⟩

instance : EmptyCollection (OrderedMap cmp α) := ⟨empty⟩
instance : Inhabited (OrderedMap cmp α) := ⟨empty⟩

def toList (m : OrderedMap cmp α) : List (κ × α) := m.entries

def keys (m : OrderedMap cmp α) : List κ := m.entries.map (·.1)

def size (m : OrderedMap cmp α) : Nat := m.entries.length

def isEmpty (m : OrderedMap cmp α) : Bool := m.entries.isEmpty

def lookup (cmp : κ → κ → Ordering) (k : κ) : List (κ × α) → Option α
  | [] => none
  | (k', v) :: rest => if cmp k k' = .eq then some v else lookup cmp k rest

def get? (m : OrderedMap cmp α) (k : κ) : Option α := lookup cmp k m.entries

def contains (m : OrderedMap cmp α) (k : κ) : Bool := (m.get? k).isSome

-- Places an entry before the first larger key, or over an equal one.
def place (cmp : κ → κ → Ordering) (k : κ) (v : α) : List (κ × α) → List (κ × α)
  | [] => [(k, v)]
  | (k', v') :: rest =>
    match cmp k k' with
    | .lt => (k, v) :: (k', v') :: rest
    | .eq => (k, v) :: rest
    | .gt => (k', v') :: place cmp k v rest

theorem mem_place {k : κ} {v : α} {entries : List (κ × α)} {e : κ × α}
    (h : e ∈ place cmp k v entries) : e = (k, v) ∨ e ∈ entries := by
  induction entries with
  | nil => simp_all [place]
  | cons entry rest ih =>
    simp only [place] at h
    split at h <;> simp only [List.mem_cons] at h ⊢
    · exact h
    · exact h.imp_right .inr
    · exact h.elim (fun h => .inr (.inl h)) fun h => (ih h).imp_right .inr

theorem place_ascending [Std.TransCmp cmp] [Std.LawfulEqCmp cmp] (k : κ) (v : α)
    {entries : List (κ × α)} (h : entries.Pairwise fun a b => cmp a.1 b.1 = .lt) :
    (place cmp k v entries).Pairwise fun a b => cmp a.1 b.1 = .lt := by
  induction entries with
  | nil => simp [place]
  | cons entry rest ih =>
    obtain ⟨hfirst, hrest⟩ := List.pairwise_cons.mp h
    simp only [place]
    split
    next hlt =>
      refine h.cons fun e he => ?_
      rcases List.mem_cons.mp he with rfl | he
      · exact hlt
      · exact Std.TransCmp.lt_trans hlt (hfirst e he)
    next heq =>
      have := Std.LawfulEqCmp.eq_of_compare heq
      subst this
      exact hrest.cons fun e he => hfirst e he
    next hgt =>
      refine (ih hrest).cons fun e he => ?_
      rcases mem_place he with rfl | he
      · exact Std.OrientedCmp.lt_of_gt hgt
      · exact hfirst e he

def insert [Std.TransCmp cmp] [Std.LawfulEqCmp cmp] (m : OrderedMap cmp α) (k : κ) (v : α) :
    OrderedMap cmp α :=
  ⟨place cmp k v m.entries, place_ascending k v m.ascending⟩

-- Keeps the entries that pass the test.
def filter (keep : κ → α → Bool) (m : OrderedMap cmp α) : OrderedMap cmp α :=
  ⟨m.entries.filter fun e => keep e.1 e.2, m.ascending.filter _⟩

def erase (m : OrderedMap cmp α) (k : κ) : OrderedMap cmp α :=
  m.filter fun k' _ => cmp k k' != .eq

-- Later entries replace earlier ones of the same key.
def ofList [Std.TransCmp cmp] [Std.LawfulEqCmp cmp] (entries : List (κ × α)) : OrderedMap cmp α :=
  entries.foldl (fun m e => m.insert e.1 e.2) ∅

-- Sets the value under a key if there is one to set.
def insertSome [Std.TransCmp cmp] [Std.LawfulEqCmp cmp] (m : OrderedMap cmp α) (k : κ) :
    Option α → OrderedMap cmp α
  | some v => m.insert k v
  | none => m

theorem ext_entries {m n : OrderedMap cmp α} (h : m.entries = n.entries) : m = n := by
  cases m; cases n; simp_all

@[simp] theorem get?_empty (k : κ) : (∅ : OrderedMap cmp α).get? k = none := rfl

theorem lookup_of_before {k : κ} {entries : List (κ × α)}
    (h : ∀ e ∈ entries, cmp k e.1 = .lt) : lookup cmp k entries = none := by
  induction entries with
  | nil => rfl
  | cons e rest ih =>
    simp only [lookup, h e (by simp), reduceCtorEq, if_false]
    exact ih fun e he => h e (by simp [he])

theorem lookup_place [Std.LawfulEqCmp cmp] (k k' : κ) (v : α) (entries : List (κ × α)) :
    lookup cmp k' (place cmp k v entries) =
      if cmp k' k = .eq then some v else lookup cmp k' entries := by
  induction entries with
  | nil => simp [place, lookup]
  | cons entry rest ih =>
    simp only [place]
    split
    · simp [lookup]
    next heq =>
      have := Std.LawfulEqCmp.eq_of_compare heq
      subst this
      by_cases h : cmp k' entry.1 = .eq <;> simp [lookup, h]
    next hgt =>
      simp only [lookup, ih]
      by_cases h : cmp k' entry.1 = .eq
      · have := Std.LawfulEqCmp.eq_of_compare h
        subst this
        have : cmp entry.1 k ≠ .eq := by
          intro he
          have := Std.LawfulEqCmp.eq_of_compare he
          subst this
          simp [Std.ReflCmp.compare_self] at hgt
        simp [h, this]
      · simp [h]

section Lawful

variable [Std.TransCmp cmp] [Std.LawfulEqCmp cmp]

@[simp] theorem get?_insert (m : OrderedMap cmp α) (k k' : κ) (v : α) :
    (m.insert k v).get? k' = if cmp k' k = .eq then some v else m.get? k' :=
  lookup_place k k' v m.entries

theorem get?_insert_self (m : OrderedMap cmp α) (k : κ) (v : α) :
    (m.insert k v).get? k = some v := by
  simp [Std.ReflCmp.compare_self]

theorem get?_insert_of_ne (m : OrderedMap cmp α) {k k' : κ} (v : α) (h : k' ≠ k) :
    (m.insert k v).get? k' = m.get? k' := by
  have : cmp k' k ≠ .eq := fun he => h (Std.LawfulEqCmp.eq_of_compare he)
  simp [this]

omit [Std.TransCmp cmp] in
theorem get?_filter (keep : κ → α → Bool) (m : OrderedMap cmp α) (k : κ) :
    (m.filter keep).get? k = (m.get? k).filter (keep k) := by
  obtain ⟨entries, hasc⟩ := m
  simp only [get?, filter]
  induction entries with
  | nil => rfl
  | cons entry rest ih =>
    obtain ⟨hfirst, hrest⟩ := List.pairwise_cons.mp hasc
    have ih := ih hrest
    by_cases heq : cmp k entry.1 = .eq
    · have := Std.LawfulEqCmp.eq_of_compare heq
      subst this
      by_cases hk : keep entry.1 entry.2
      · simp [hk, lookup, heq, Option.filter]
      · simp [hk, lookup, heq, ih, lookup_of_before hfirst, Option.filter]
    · by_cases hk : keep entry.1 entry.2 <;> simp [hk, lookup, heq, ih]

@[simp] theorem get?_erase (m : OrderedMap cmp α) (k k' : κ) :
    (m.erase k).get? k' = if cmp k' k = .eq then none else m.get? k' := by
  rw [erase, get?_filter]
  by_cases h : cmp k' k = .eq
  · have := Std.LawfulEqCmp.eq_of_compare h
    subst this
    cases m.get? k' <;> simp [Std.ReflCmp.compare_self, Option.filter]
  · have : cmp k k' ≠ .eq := fun he => h (Std.OrientedCmp.eq_symm he)
    cases m.get? k' <;> simp [h, this, Option.filter]

theorem entries_eq_of_lookup {a b : List (κ × α)}
    (ha : a.Pairwise fun x y => cmp x.1 y.1 = .lt) (hb : b.Pairwise fun x y => cmp x.1 y.1 = .lt)
    (h : ∀ k, lookup cmp k a = lookup cmp k b) : a = b := by
  induction a generalizing b with
  | nil =>
    cases b with
    | nil => rfl
    | cons e rest => simpa [lookup, Std.ReflCmp.compare_self] using h e.1
  | cons x xs ih =>
    cases b with
    | nil => simpa [lookup, Std.ReflCmp.compare_self] using h x.1
    | cons y ys =>
      obtain ⟨hx, hxs⟩ := List.pairwise_cons.mp ha
      obtain ⟨hy, hys⟩ := List.pairwise_cons.mp hb
      have hfirst := h x.1
      have hother := h y.1
      simp only [lookup, Std.ReflCmp.compare_self, if_true] at hfirst hother
      cases hc : cmp x.1 y.1 with
      | lt =>
        rw [lookup_of_before fun e he => Std.TransCmp.lt_trans hc (hy e he)] at hfirst
        simp [hc] at hfirst
      | gt =>
        have hc' := Std.OrientedCmp.lt_of_gt hc
        rw [lookup_of_before fun e he => Std.TransCmp.lt_trans hc' (hx e he)] at hother
        simp [hc'] at hother
      | eq =>
        have hk := Std.LawfulEqCmp.eq_of_compare hc
        have hv : x.2 = y.2 := by simpa [hc] using hfirst
        have hxy : x = y := Prod.ext hk hv
        subst hxy
        congr 1
        refine ih hxs hys fun k => ?_
        have hk := h k
        by_cases he : cmp k x.1 = .eq
        · have := Std.LawfulEqCmp.eq_of_compare he
          subst this
          rw [lookup_of_before hx, lookup_of_before hy]
        · simpa [lookup, he] using hk

-- Maps that agree under every key are equal.
theorem ext_get? {m n : OrderedMap cmp α} (h : ∀ k, m.get? k = n.get? k) : m = n :=
  ext_entries (entries_eq_of_lookup m.ascending n.ascending h)

end Lawful

end OrderedMap

end LightningRecords

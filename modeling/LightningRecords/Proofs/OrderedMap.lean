import LightningRecords.OrderedMap
import Mathlib.Data.List.Nodup

namespace LightningRecords.OrderedMap

variable {ι κ α β : Type} {cmp : κ → κ → Ordering} [Std.TransCmp cmp] [Std.LawfulEqCmp cmp]

omit [Std.TransCmp cmp] in
theorem keys_nodup (m : OrderedMap cmp α) : m.keys.Nodup := by
  apply List.pairwise_map.mpr
  refine m.ascending.imp fun {a b} hlt heq => ?_
  have hself : cmp a.1 b.1 = .eq := Std.LawfulEqCmp.compare_eq_iff_eq.mpr heq
  rw [hself] at hlt
  cases hlt

omit [Std.TransCmp cmp] in
theorem mem_toList_iff (m : OrderedMap cmp α) (k : κ) (v : α) :
    (k, v) ∈ m.toList ↔ m.get? k = some v := by
  obtain ⟨entries, hascending⟩ := m
  simp only [toList, get?]
  induction entries with
  | nil => simp [lookup]
  | cons entry rest ih =>
    obtain ⟨hfirst, hrest⟩ := List.pairwise_cons.mp hascending
    have ih := ih hrest
    by_cases heq : k = entry.1
    · subst heq
      have hnot : ∀ w, (entry.1, w) ∉ rest := by
        intro w hmem
        have hlt := hfirst _ hmem
        simp [Std.ReflCmp.compare_self] at hlt
      simp [lookup, Std.ReflCmp.compare_self, hnot, Prod.ext_iff, eq_comm]
    · simp [lookup, Std.LawfulEqCmp.compare_eq_iff_eq, heq, ih, Prod.ext_iff]

omit [Std.TransCmp cmp] in
theorem get?_of_mem {m : OrderedMap cmp α} {e : κ × α} (h : e ∈ m.toList) :
    m.get? e.1 = some e.2 :=
  (mem_toList_iff m e.1 e.2).mp h

omit [Std.TransCmp cmp] in
theorem mem_keys_iff (m : OrderedMap cmp α) (k : κ) : k ∈ m.keys ↔ m.contains k = true := by
  rw [contains, Option.isSome_iff_exists, keys, List.mem_map]
  constructor
  · rintro ⟨e, he, rfl⟩
    exact ⟨e.2, get?_of_mem he⟩
  · rintro ⟨v, hv⟩
    exact ⟨(k, v), (mem_toList_iff m k v).mpr hv, rfl⟩

-- A search through the entries finds the least key that has what is looked for.
theorem findSome?_toList_eq_some_iff {m : OrderedMap cmp α} {f : κ × α → Option β} {b : β} :
    m.toList.findSome? f = some b ↔
      ∃ k v, m.get? k = some v ∧ f (k, v) = some b ∧
        ∀ k' v', m.get? k' = some v' → cmp k' k = .lt → f (k', v') = none := by
  have hascending : m.toList.Pairwise fun a b => cmp a.1 b.1 = .lt := m.ascending
  simp only [← mem_toList_iff]
  constructor
  · intro h
    obtain ⟨before, ⟨k, v⟩, after, hsplit, hfound, hbefore⟩ := List.findSome?_eq_some_iff.mp h
    rw [hsplit] at hascending ⊢
    obtain ⟨_, hafter, _⟩ := List.pairwise_append.mp hascending
    refine ⟨k, v, by simp, hfound, fun k' v' hmem hlt => ?_⟩
    rcases List.mem_append.mp hmem with hmem | hmem
    · exact hbefore _ hmem
    · rcases List.mem_cons.mp hmem with heq | hmem
      · cases heq
        have hself : cmp k k = .eq := Std.ReflCmp.compare_self
        rw [hself] at hlt
        cases hlt
      · have hgt : cmp k' k = .gt :=
          Std.OrientedCmp.gt_of_lt ((List.pairwise_cons.mp hafter).1 _ hmem)
        rw [hgt] at hlt
        cases hlt
  · rintro ⟨k, v, hmem, hfound, hnone⟩
    obtain ⟨before, after, hsplit⟩ := List.append_of_mem hmem
    rw [hsplit] at hascending hnone ⊢
    obtain ⟨_, _, hless⟩ := List.pairwise_append.mp hascending
    refine List.findSome?_eq_some_iff.mpr ⟨before, (k, v), after, rfl, hfound, fun e he => ?_⟩
    exact hnone e.1 e.2 (by simp [he]) (hless e he (k, v) (by simp))

theorem isEmpty_iff (m : OrderedMap cmp α) : m.isEmpty = true ↔ ∀ k, m.get? k = none := by
  constructor
  · intro h k
    have hnil : m.entries = [] := List.isEmpty_iff.mp h
    simp [get?, hnil, lookup]
  · intro h
    have hempty : m = ∅ := ext_get? fun k => by rw [h k, get?_empty]
    rw [hempty]
    rfl

@[simp] theorem get?_insertSome (m : OrderedMap cmp α) (k k' : κ) (v : Option α) :
    (m.insertSome k v).get? k' = if cmp k' k = .eq then v.or (m.get? k) else m.get? k' := by
  cases v with
  | none =>
    by_cases h : cmp k' k = .eq
    · have heq := Std.LawfulEqCmp.eq_of_compare h
      subst heq
      simp [insertSome]
    · simp [insertSome, h]
  | some value => simp [insertSome]

theorem get?_erase_self (m : OrderedMap cmp α) (k : κ) : (m.erase k).get? k = none := by
  simp [Std.ReflCmp.compare_self]

theorem get?_erase_of_ne (m : OrderedMap cmp α) {k k' : κ} (h : k' ≠ k) :
    (m.erase k).get? k' = m.get? k' := by
  simp [Std.LawfulEqCmp.compare_eq_iff_eq, h]

theorem insertSome_some (m : OrderedMap cmp α) (k : κ) (v : α) :
    m.insertSome k (some v) = m.insert k v := rfl

theorem get?_foldl_insert_of_notMem (l : List ι) (key : ι → κ) (value : ι → α)
    (m : OrderedMap cmp α) {k : κ} (h : ∀ i ∈ l, key i ≠ k) :
    (l.foldl (fun m i => m.insert (key i) (value i)) m).get? k = m.get? k := by
  induction l generalizing m with
  | nil => rfl
  | cons i rest ih =>
    have hfirst : k ≠ key i := Ne.symm (h i (by simp))
    rw [List.foldl_cons, ih _ fun j hj => h j (List.mem_cons_of_mem i hj),
      get?_insert_of_ne _ _ hfirst]

theorem get?_foldl_insert_congr (l : List ι) (key : ι → κ) (value : ι → α)
    {m n : OrderedMap cmp α} {k : κ} (h : m.get? k = n.get? k) :
    (l.foldl (fun m i => m.insert (key i) (value i)) m).get? k =
      (l.foldl (fun m i => m.insert (key i) (value i)) n).get? k := by
  induction l generalizing m n with
  | nil => exact h
  | cons i rest ih =>
    apply ih
    rw [get?_insert, get?_insert, h]

theorem get?_foldl_insert_of_mem {l : List ι} {key : ι → κ} (value : ι → α)
    (m : OrderedMap cmp α) (hn : (l.map key).Nodup) {i : ι} (hi : i ∈ l) :
    (l.foldl (fun m i => m.insert (key i) (value i)) m).get? (key i) = some (value i) := by
  induction l generalizing m with
  | nil => simp at hi
  | cons j rest ih =>
    obtain ⟨hnot, hrest⟩ := List.nodup_cons.mp hn
    rw [List.foldl_cons]
    rcases List.mem_cons.mp hi with rfl | hi
    · have hlater : ∀ j ∈ rest, key j ≠ key i := by
        intro j hj heq
        exact hnot (heq ▸ List.mem_map_of_mem hj)
      rw [get?_foldl_insert_of_notMem _ _ _ _ hlater, get?_insert_self]
    · exact ih _ hrest hi

-- The entries of one map put into another, which may be ordered otherwise.
theorem get?_foldl_insert_toList {cmp' : κ → κ → Ordering} [Std.TransCmp cmp']
    [Std.LawfulEqCmp cmp'] (source : OrderedMap cmp' β) (f : κ → β → α) (m : OrderedMap cmp α)
    (k : κ) :
    (source.toList.foldl (fun m e => m.insert e.1 (f e.1 e.2)) m).get? k =
      ((source.get? k).map (f k)).or (m.get? k) := by
  cases hk : source.get? k with
  | none =>
    rw [get?_foldl_insert_of_notMem _ Prod.fst]
    · rfl
    · rintro e he rfl
      rw [get?_of_mem he] at hk
      cases hk
  | some b =>
    have hmem := (mem_toList_iff source k b).mpr hk
    exact get?_foldl_insert_of_mem (fun e => f e.1 e.2) m source.keys_nodup hmem

theorem mem_of_mem_foldl_insert {l : List (κ × α)} {m : OrderedMap cmp α} {e : κ × α}
    (h : e ∈ (l.foldl (fun m e => m.insert e.1 e.2) m).toList) : e ∈ m.toList ∨ e ∈ l := by
  induction l generalizing m with
  | nil => exact .inl h
  | cons first rest ih =>
    rcases ih h with h | h
    · rcases mem_place h with rfl | h
      · exact .inr (by simp)
      · exact .inl h
    · exact .inr (List.mem_cons_of_mem first h)

theorem mem_of_mem_ofList {l : List (κ × α)} {e : κ × α}
    (h : e ∈ (ofList l : OrderedMap cmp α).toList) : e ∈ l := by
  rcases mem_of_mem_foldl_insert h with h | h
  · cases h
  · exact h

theorem contains_insert (m : OrderedMap cmp α) (k k' : κ) (v : α) :
    (m.insert k v).contains k' = true ↔ k' = k ∨ m.contains k' = true := by
  by_cases heq : k' = k <;> simp [contains, Std.LawfulEqCmp.compare_eq_iff_eq, heq]

theorem contains_foldl_insert {l : List (κ × α)} {m : OrderedMap cmp α} {k : κ}
    (h : m.contains k = true ∨ k ∈ l.map Prod.fst) :
    (l.foldl (fun m e => m.insert e.1 e.2) m).contains k = true := by
  induction l generalizing m with
  | nil => simpa using h
  | cons first rest ih =>
    apply ih
    rw [contains_insert]
    rcases h with h | h
    · exact .inl (.inr h)
    · rcases List.mem_cons.mp h with h | h
      · exact .inl (.inl h)
      · exact .inr h

theorem contains_ofList {l : List (κ × α)} {k : κ} (h : k ∈ l.map Prod.fst) :
    (ofList l : OrderedMap cmp α).contains k = true :=
  contains_foldl_insert (.inr h)

-- A map made of the values that a function has for some of the keys.
theorem get?_ofList_filterMap {keys : List κ} {f : κ → Option α} {k : κ}
    (h : k ∉ keys → f k = none) :
    (ofList (keys.filterMap fun k => (f k).map fun v => (k, v)) : OrderedMap cmp α).get? k =
      f k := by
  have hmem : ∀ v, (k, v) ∈ (keys.filterMap fun k => (f k).map fun v => (k, v)) ↔
      k ∈ keys ∧ f k = some v := by
    intro v
    simp only [List.mem_filterMap, Option.map_eq_some_iff, Prod.mk.injEq]
    constructor
    · rintro ⟨k', hk', v', hv', rfl, rfl⟩
      exact ⟨hk', hv'⟩
    · rintro ⟨hk, hv⟩
      exact ⟨k, hk, v, hv, rfl, rfl⟩
  cases hget : (ofList (keys.filterMap fun k => (f k).map fun v => (k, v)) :
      OrderedMap cmp α).get? k with
  | some v =>
    have hin := mem_of_mem_ofList ((mem_toList_iff _ k v).mpr hget)
    exact ((hmem v).mp hin).2.symm
  | none =>
    cases hf : f k with
    | none => rfl
    | some v =>
      have hk : k ∈ keys := by
        by_contra hnot
        rw [h hnot] at hf
        cases hf
      have hcontains : (ofList (keys.filterMap fun k => (f k).map fun v => (k, v)) :
          OrderedMap cmp α).contains k = true :=
        contains_ofList (List.mem_map_of_mem (f := Prod.fst) ((hmem v).mpr ⟨hk, hf⟩))
      simp [contains, hget] at hcontains

theorem ofList_toList (m : OrderedMap cmp α) : ofList m.toList = m := by
  apply ext_get?
  intro k
  have h := get?_foldl_insert_toList m (fun _ v => v) (∅ : OrderedMap cmp α) k
  rw [get?_empty, Option.or_none, Option.map_id'] at h
  exact h

end LightningRecords.OrderedMap

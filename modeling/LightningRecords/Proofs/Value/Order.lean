import LightningRecords.OrderedMap
import LightningRecords.Value.Order

namespace LightningRecords.Value

theorem compareAll_cons (a b : Value) (as bs : List Value) :
    compareAll (a :: as) (b :: bs) = (a.compare b).then (compareAll as bs) := by
  simp only [compareAll]
  cases a.compare b <;> rfl

theorem compare_of_rank_lt {a b : Value} (h : a.rank < b.rank) : a.compare b = .lt := by
  cases a <;> cases b <;> simp_all [rank, compare] <;> rfl

theorem compare_of_rank_gt {a b : Value} (h : b.rank < a.rank) : a.compare b = .gt := by
  cases a <;> cases b <;> simp_all [rank, compare] <;> rfl

theorem rank_le_of_isLE {a b : Value} (h : (a.compare b).isLE) : a.rank ≤ b.rank := by
  rcases Nat.lt_or_ge b.rank a.rank with hgt | hle
  · rw [compare_of_rank_gt hgt] at h
    cases h
  · exact hle

mutual

theorem compare_swap : (a b : Value) → a.compare b = (b.compare a).swap
  | .list as, .list bs => by
    simp only [compare]
    exact compareAll_swap as bs
  | .int _, .int _ | .bool _, .bool _ => by
    simp only [compare]
    exact Std.OrientedOrd.eq_swap
  | .text _, .text _ => by
    simp only [compare]
    exact Std.OrientedCmp.eq_swap
  | .bytes _, .bytes _ => by
    simp only [compare]
    exact Std.OrientedCmp.eq_swap
  | .int _, .text _ | .int _, .bytes _ | .int _, .bool _ | .int _, .list _
  | .text _, .int _ | .text _, .bytes _ | .text _, .bool _ | .text _, .list _
  | .bytes _, .int _ | .bytes _, .text _ | .bytes _, .bool _ | .bytes _, .list _
  | .bool _, .int _ | .bool _, .text _ | .bool _, .bytes _ | .bool _, .list _
  | .list _, .int _ | .list _, .text _ | .list _, .bytes _ | .list _, .bool _ => rfl

theorem compareAll_swap : (as bs : List Value) → compareAll as bs = (compareAll bs as).swap
  | [], [] | [], _ :: _ | _ :: _, [] => rfl
  | a :: as, b :: bs => by
    rw [compareAll_cons, compareAll_cons, Ordering.swap_then, ← compare_swap a b,
      ← compareAll_swap as bs]

end

mutual

theorem eq_of_compare : (a b : Value) → a.compare b = .eq → a = b
  | .list as, .list bs, h => by
    rw [eq_of_compareAll as bs h]
  | .int _, .int _, h | .bool _, .bool _, h => by
    rw [Std.LawfulEqOrd.eq_of_compare h]
  | .text _, .text _, h => by
    rw [@Std.LawfulEqCmp.eq_of_compare _ Text.compare _ _ _ h]
  | .bytes _, .bytes _, h => by
    rw [@Std.LawfulEqCmp.eq_of_compare _ Bytes.compare _ _ _ h]

theorem eq_of_compareAll : (as bs : List Value) → compareAll as bs = .eq → as = bs
  | [], [], _ => rfl
  | a :: as, b :: bs, h => by
    rw [compareAll_cons, Ordering.then_eq_eq] at h
    rw [eq_of_compare a b h.1, eq_of_compareAll as bs h.2]

end

-- Between values of different kinds the kinds decide.
theorem isLE_trans_of_rank {a b c : Value} (hab : (a.compare b).isLE) (hbc : (b.compare c).isLE)
    (h : ¬(a.rank = b.rank ∧ b.rank = c.rank)) : (a.compare c).isLE := by
  have hfirst := rank_le_of_isLE hab
  have hsecond := rank_le_of_isLE hbc
  rw [compare_of_rank_lt (by omega)]
  rfl

theorem eq_of_isLE_of_isLE {a b : Value} (hab : (a.compare b).isLE) (hba : (b.compare a).isLE) :
    a = b := by
  rw [compare_swap b a] at hba
  apply eq_of_compare
  cases hc : a.compare b <;> simp_all

mutual

theorem isLE_trans (a b c : Value) (hab : (a.compare b).isLE) (hbc : (b.compare c).isLE) :
    (a.compare c).isLE := by
  by_cases h : a.rank = b.rank ∧ b.rank = c.rank
  · obtain ⟨hfirst, hsecond⟩ := h
    cases a <;> cases b <;> cases hfirst <;> cases c <;> cases hsecond
    · exact Std.TransOrd.isLE_trans hab hbc
    · exact @Std.TransCmp.isLE_trans _ Text.compare _ _ _ _ hab hbc
    · exact @Std.TransCmp.isLE_trans _ Bytes.compare _ _ _ _ hab hbc
    · exact Std.TransOrd.isLE_trans hab hbc
    · exact isLE_transAll _ _ _ hab hbc
  · exact isLE_trans_of_rank hab hbc h

theorem isLE_transAll : (as bs cs : List Value) → (compareAll as bs).isLE →
    (compareAll bs cs).isLE → (compareAll as cs).isLE
  | [], _, [], _, _ | [], _, _ :: _, _, _ => rfl
  | a :: as, b :: bs, c :: cs, hab, hbc => by
    rw [compareAll_cons, Ordering.isLE_then_iff_and] at hab hbc ⊢
    obtain ⟨hab, habs⟩ := hab
    obtain ⟨hbc, hbcs⟩ := hbc
    have hac := isLE_trans a b c hab hbc
    refine ⟨hac, ?_⟩
    by_cases heq : a = c
    · subst heq
      have hsame := eq_of_isLE_of_isLE hab hbc
      subst hsame
      have hself : a.compare a ≠ .lt := by
        intro hlt
        have hswap := compare_swap a a
        rw [hlt] at hswap
        cases hswap
      exact .inr (isLE_transAll as bs cs (habs.resolve_left hself) (hbcs.resolve_left hself))
    · left
      cases hc : a.compare c with
      | lt => rfl
      | eq => exact absurd (eq_of_compare a c hc) heq
      | gt =>
        rw [hc] at hac
        cases hac

end

theorem compare_self (a : Value) : a.compare a = .eq := by
  have hswap := compare_swap a a
  cases hc : a.compare a <;> simp_all

instance : Std.TransCmp Value.compare where
  eq_swap {a b} := compare_swap a b
  isLE_trans {a b c} := isLE_trans a b c

instance : Std.LawfulEqCmp Value.compare where
  compare_self {a} := compare_self a
  eq_of_compare {a b} := eq_of_compare a b

theorem mem_insertDistinct (v w : Value) (items : List Value) :
    w ∈ insertDistinct v items ↔ w = v ∨ w ∈ items := by
  induction items with
  | nil => simp [insertDistinct]
  | cons x rest ih =>
    simp only [insertDistinct]
    split
    · simp
    · rename_i heq
      rw [eq_of_compare v x heq]
      simp
    · rw [List.mem_cons, ih, List.mem_cons]
      exact or_left_comm

theorem insertDistinct_ascending (v : Value) {items : List Value}
    (h : items.Pairwise fun a b => a.compare b = .lt) :
    (insertDistinct v items).Pairwise fun a b => a.compare b = .lt := by
  induction items with
  | nil => simp [insertDistinct]
  | cons x rest ih =>
    obtain ⟨hfirst, hrest⟩ := List.pairwise_cons.mp h
    simp only [insertDistinct]
    split
    · rename_i hlt
      refine h.cons fun w hw => ?_
      rcases List.mem_cons.mp hw with rfl | hw
      · exact hlt
      · exact Std.TransCmp.lt_trans hlt (hfirst w hw)
    · exact h
    · rename_i hgt
      refine (ih hrest).cons fun w hw => ?_
      rcases (mem_insertDistinct v w rest).mp hw with rfl | hw
      · exact Std.OrientedCmp.lt_of_gt hgt
      · exact hfirst w hw

theorem mem_members (v : Value) (items : List Value) : v ∈ members items ↔ v ∈ items := by
  induction items with
  | nil => rfl
  | cons x rest ih =>
    rw [members, List.foldr_cons, mem_insertDistinct, List.mem_cons]
    exact or_congr_right ih

theorem members_ascending (items : List Value) :
    (members items).Pairwise fun a b => a.compare b = .lt := by
  induction items with
  | nil => exact .nil
  | cons x rest ih => exact insertDistinct_ascending x ih

-- An ascending list is determined by its members.
theorem members_eq_iff (as bs : List Value) : members as = members bs ↔ ∀ v, v ∈ as ↔ v ∈ bs := by
  constructor
  · intro h v
    rw [← mem_members v as, h, mem_members v bs]
  · intro h
    have hperm : (members as).Perm (members bs) := by
      apply (List.perm_ext_iff_of_nodup _ _).mpr
      · intro v
        rw [mem_members, mem_members]
        exact h v
      · exact (members_ascending as).imp fun hlt heq => by simp [heq, compare_self] at hlt
      · exact (members_ascending bs).imp fun hlt heq => by simp [heq, compare_self] at hlt
    refine hperm.eq_of_pairwise (fun a b _ _ hab hba => ?_) (members_ascending as)
      (members_ascending bs)
    rw [compare_swap b a, hab] at hba
    cases hba

theorem setEq_iff (a b : Value) :
    a.setEq b = true ↔
      a = b ∨ ∃ as bs, a = .list as ∧ b = .list bs ∧ ∀ v, v ∈ as ↔ v ∈ bs := by
  constructor
  · intro h
    by_cases hlists : ∃ as bs, a = .list as ∧ b = .list bs
    · obtain ⟨as, bs, rfl, rfl⟩ := hlists
      exact .inr ⟨as, bs, rfl, rfl, (members_eq_iff as bs).mp (of_decide_eq_true h)⟩
    · cases a <;> cases b <;> simp_all [setEq]
  · rintro (rfl | ⟨as, bs, rfl, rfl, h⟩)
    · cases a <;> simp [setEq]
    · simpa [setEq] using (members_eq_iff as bs).mpr h

end LightningRecords.Value

import LightningRecords.Cbor.Item
import Mathlib.Data.List.Induction

namespace LightningRecords.Cbor

-- Where the keys of a kind stand in a map.
def Kind.rank : Kind → Nat
  | .integer => 0
  | .bytes => 1
  | .text => 2
  | .array => 3
  | .map => 4
  | .bool => 5
  | .null => 6
  | .float => 7

theorem Kind.rank_injective {a b : Kind} (h : a.rank = b.rank) : a = b := by
  cases a <;> cases b <;> first | rfl | cases h

-- The order of the keys of a map. Two keys of one kind that are no texts are not told
-- apart, as either of them is the same fault of a record.
def compareKeys : Item → Item → Ordering
  | .text a, .text b => Text.compareByLength a b
  | a, b => Ord.compare a.kind.rank b.kind.rank

-- The entries of a map as it is in the end: of several under one key the last.
def Holds (entries : List (Item × Item)) (key value : Item) : Prop :=
  ∃ before after, entries = before ++ (key, value) :: after ∧ ∀ e ∈ after, e.1 ≠ key

section Keys

variable {a b : Item}

theorem kind_eq_text_iff : a.kind = .text ↔ ∃ name, a = .text name := by
  cases a <;> simp [Item.kind]

-- A key before another is a shorter or smaller name, or else of an earlier kind.
theorem of_compareKeys_lt (h : compareKeys a b = .lt) :
    a.kind.rank < b.kind.rank ∨
      ∃ s t, a = .text s ∧ b = .text t ∧ Text.compareByLength s t = .lt := by
  unfold compareKeys at h
  split at h
  · exact .inr ⟨_, _, rfl, rfl, h⟩
  · exact .inl (Nat.compare_eq_lt.mp h)

theorem of_compareKeys_eq (h : compareKeys a b = .eq) :
    a.kind = b.kind ∧ (a.kind = .text → a = b) := by
  unfold compareKeys at h
  split at h
  · rw [Std.LawfulEqCmp.eq_of_compare h]
    exact ⟨rfl, fun _ => rfl⟩
  · rename_i hnot
    have hkind := Kind.rank_injective (Nat.compare_eq_eq.mp h)
    refine ⟨hkind, fun htext => ?_⟩
    obtain ⟨s, hs⟩ := kind_eq_text_iff.mp htext
    obtain ⟨t, ht⟩ := kind_eq_text_iff.mp (hkind ▸ htext)
    exact absurd ht (hnot s t hs)

theorem compareKeys_swap : compareKeys b a = (compareKeys a b).swap := by
  unfold compareKeys
  split
  · exact Std.OrientedCmp.eq_swap
  · rename_i hnot
    split
    · rename_i s t
      exact absurd rfl (hnot t s rfl)
    · exact Std.OrientedCmp.eq_swap

end Keys

section Entries

variable {entries : List (Item × Item)} {key value other : Item}

theorem not_holds_nil : ¬Holds [] key value := by
  rintro ⟨before, after, heq, _⟩
  simp at heq

theorem holds_concat (entry : Item × Item) :
    Holds (entries ++ [entry]) key value ↔
      (key, value) = entry ∨ key ≠ entry.1 ∧ Holds entries key value := by
  constructor
  · rintro ⟨before, after, heq, hafter⟩
    -- the entry that holds is the last one, or the last one is behind it
    rcases List.eq_nil_or_concat after with rfl | ⟨after, last, rfl⟩
    · obtain ⟨_, hlast⟩ := List.append_inj' heq rfl
      exact .inl (List.cons_eq_cons.mp hlast).1.symm
    · rw [List.concat_eq_append] at heq hafter
      rw [← List.cons_append, ← List.append_assoc] at heq
      obtain ⟨hfront, hlast⟩ := List.append_inj' heq rfl
      obtain ⟨rfl, _⟩ := List.cons_eq_cons.mp hlast
      refine .inr ⟨(hafter entry (by simp)).symm, before, after, hfront, fun e he => ?_⟩
      exact hafter e (by simp [he])
  · rintro (rfl | ⟨hne, before, after, rfl, hafter⟩)
    · exact ⟨entries, [], rfl, by simp⟩
    · refine ⟨before, after ++ [entry], by simp, fun e he => ?_⟩
      rcases List.mem_append.mp he with he | he
      · exact hafter e he
      · rw [List.mem_singleton.mp he]
        exact Ne.symm hne

theorem Holds.unique (h : Holds entries key value) (h' : Holds entries key other) :
    value = other := by
  induction entries using List.reverseRecOn with
  | nil => exact absurd h not_holds_nil
  | append_singleton entries entry ih =>
    rcases (holds_concat entry).mp h with rfl | ⟨hne, h⟩ <;>
      rcases (holds_concat _).mp h' with heq | ⟨hne', h'⟩
    · exact (congrArg Prod.snd heq).symm
    · exact absurd rfl hne'
    · exact absurd (congrArg Prod.fst heq) hne
    · exact ih h h'

theorem exists_holds_of_mem (h : (key, value) ∈ entries) : ∃ last, Holds entries key last := by
  induction entries using List.reverseRecOn with
  | nil => cases h
  | append_singleton entries entry ih =>
    by_cases hkey : key = entry.1
    · exact ⟨entry.2, (holds_concat entry).mpr (.inl (by rw [hkey]))⟩
    · rcases List.mem_append.mp h with h | h
      · obtain ⟨last, hlast⟩ := ih h
        exact ⟨last, (holds_concat entry).mpr (.inr ⟨hkey, hlast⟩)⟩
      · rw [← List.mem_singleton.mp h] at hkey
        exact absurd rfl hkey

theorem Holds.mem (h : Holds entries key value) : (key, value) ∈ entries := by
  obtain ⟨before, after, rfl, _⟩ := h
  simp

end Entries

end LightningRecords.Cbor

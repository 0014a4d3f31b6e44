import LightningRecords.Proofs.Cbor.Grammar

namespace LightningRecords.Cbor

mutual

-- How deep arrays and maps are nested in an item.
def Item.nesting : Item → Nat
  | .array its => 1 + nestingAll its
  | .map es => 1 + nestingEntries es
  | _ => 0

def nestingAll : List Item → Nat
  | [] => 0
  | it :: rest => max it.nesting (nestingAll rest)

def nestingEntries : List (Item × Item) → Nat
  | [] => 0
  | (key, value) :: rest => max (max key.nesting value.nesting) (nestingEntries rest)

end

theorem nestingEntries_le_iff {es : List (Item × Item)} {n : Nat} :
    nestingEntries es ≤ n ↔ ∀ e ∈ es, e.1.nesting ≤ n ∧ e.2.nesting ≤ n := by
  induction es with
  | nil => simp [nestingEntries]
  | cons e rest ih =>
    obtain ⟨key, value⟩ := e
    simp only [nestingEntries, Nat.max_le, ih, List.mem_cons, forall_eq_or_imp]

theorem Simple.nesting_eq {info : Nat} {input rest : Bytes} {it : Item}
    (h : Simple info input it rest) : it.nesting = 0 := by
  cases h <;> rfl

theorem Leaf.nesting_eq {input rest : Bytes} {it : Item} (h : Leaf input it rest) :
    it.nesting = 0 := by
  cases h with
  | simple _ h => exact h.nesting_eq
  | _ => rfl

theorem nestingAll_flatten (es : List (Item × Item)) :
    nestingAll (flatten es) = nestingEntries es := by
  induction es with
  | nil => rfl
  | cons e rest ih =>
    have hcons : flatten (e :: rest) = e.1 :: e.2 :: flatten rest := rfl
    simp only [hcons, nestingAll, nestingEntries, ih]
    omega

-- Every array and map takes a level, so what is spelled never needs more of them.
theorem Spells.nesting_le {room : Nat} {input rest : Bytes} {its : List Item}
    (h : Spells room input its rest) : nestingAll its ≤ room := by
  induction h with
  | nil => exact Nat.zero_le _
  | leaf h _ ih =>
    have hleaf := h.nesting_eq
    simp only [nestingAll]
    omega
  | array _ _ _ ihcontent ihrest =>
    simp only [nestingAll, Item.nesting]
    omega
  | map _ _ _ ihcontent ihrest =>
    rw [nestingAll_flatten] at ihcontent
    simp only [nestingAll, Item.nesting]
    omega
  | tagged _ _ _ ihcontent ihrest =>
    simp only [nestingAll] at ihcontent ⊢
    omega

theorem nesting_le_of_parse {bytes : Bytes} {it : Item} (h : parse bytes = .ok it) :
    it.nesting ≤ maxDepth := by
  have hall := (spells_of_parse h).nesting_le
  simp only [nestingAll] at hall
  omega

end LightningRecords.Cbor

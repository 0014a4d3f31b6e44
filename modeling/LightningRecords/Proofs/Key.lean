import LightningRecords.Procedure.Field
import LightningRecords.Proofs.Except

namespace LightningRecords

theorem Text.bytes_append (a b : String) : Text.bytes (a ++ b) = Text.bytes a ++ Text.bytes b := by
  simp only [Text.bytes, String.toByteArray_append, ByteArray.data_append, Array.toList_append]

theorem Text.bytes_eq_flatMap (text : String) :
    Text.bytes text = text.toList.flatMap String.utf8EncodeChar := by
  rw [Text.bytes, ← String.utf8Encode_toList, List.utf8Encode]
  simp

namespace Key

variable {kind : String} {parts : List String} {message : Bytes}

theorem bytes_intercalate (parts : List String) :
    Text.bytes (":".intercalate parts) = [colon].intercalate (parts.map Text.bytes) := by
  have hcolon : Text.bytes ":" = [colon] := by decide +kernel
  induction parts with
  | nil => rfl
  | cons part rest ih =>
    cases rest with
    | nil => simp
    | cons next rest =>
      rw [String.intercalate_cons_cons, Text.bytes_append, Text.bytes_append, hcolon, ih]
      simp only [List.map_cons, List.intercalate_cons_cons]

theorem checkPart_eq_ok {part : String} (h : checkPart kind part = .ok ()) :
    hasColon part = false := by
  unfold checkPart at h
  split at h
  · cases h
  · split at h
    · cases h
    · rename_i hcolon
      simpa using hcolon

theorem checkKind_eq_ok (h : checkKind kind = .ok ()) : hasColon kind = false := by
  unfold checkKind at h
  split at h
  · cases h
  · split at h
    · cases h
    · rename_i hcolon
      simpa using hcolon

-- What is hashed are the kind and the parts, none of which has a colon, between colons.
structure Joined (kind : String) (parts : List String) (message : Bytes) : Prop where
  colons : ∀ piece ∈ kind :: parts, hasColon piece = false
  message : message = [colon].intercalate ((kind :: parts).map Text.bytes)

theorem joined_of_compositePreimage (h : compositePreimage kind parts = .ok message) :
    Joined kind parts message := by
  unfold compositePreimage at h
  split at h
  · cases h
  · rename_i hparts
    obtain ⟨_, hchecked, h⟩ := bind_eq_ok_iff.mp h
    obtain ⟨_, hkind, h⟩ := bind_eq_ok_iff.mp h
    split at h
    · cases h
    · cases h
      refine ⟨List.forall_mem_cons.mpr ⟨checkKind_eq_ok hkind, fun part hpart => ?_⟩, ?_⟩
      · exact checkPart_eq_ok (forM_eq_ok hchecked part hpart)
      · obtain ⟨part, rest, rfl⟩ := List.exists_cons_of_ne_nil (by simpa using hparts)
        simp only [bytes_intercalate, List.map_cons, List.intercalate_cons_cons,
          List.append_assoc, List.singleton_append]

-- Splitting at the colons gives back what was joined.
theorem Joined.splitOn (h : Joined kind parts message) :
    message.splitOn colon = (kind :: parts).map Text.bytes := by
  rw [h.message]
  apply List.splitOn_intercalate
  · rintro piece hpiece hcolon
    obtain ⟨text, htext, rfl⟩ := List.mem_map.mp hpiece
    have hnone := h.colons text htext
    simp only [hasColon, List.contains_eq_mem, decide_eq_false_iff_not] at hnone
    exact hnone hcolon
  · simp

theorem compositePreimage_injective {kind' : String} {parts' : List String}
    (h : compositePreimage kind parts = .ok message)
    (h' : compositePreimage kind' parts' = .ok message) : kind = kind' ∧ parts = parts' := by
  have hpieces := (joined_of_compositePreimage h).splitOn
  rw [(joined_of_compositePreimage h').splitOn] at hpieces
  have hsame := List.map_inj_right (fun _ _ => Text.bytes_injective) |>.mp hpieces
  exact List.cons_eq_cons.mp hsame.symm

section Pieces

-- The pieces of an identity between its colons.
def pieces (identity : String) : List String :=
  (identity.toList.splitOn ':').map String.ofList

theorem colon_eq_ofNat_iff {n : Nat} : colon = UInt8.ofNat n ↔ n % 256 = 58 := by
  rw [← UInt8.toNat_inj, UInt8.toNat_ofNat']
  exact eq_comm

-- The bytes of a character that takes several of them are past the ASCII range.
theorem eq_colon_of_mem_utf8EncodeChar {c : Char} (h : colon ∈ String.utf8EncodeChar c) :
    c = ':' := by
  have hvalue : c.val.toNat = 58 := by
    rw [String.utf8EncodeChar.eq_1] at h
    split at h
    · rw [List.mem_singleton, colon_eq_ofNat_iff] at h
      omega
    · exfalso
      repeat' split at h
      all_goals
        simp only [List.mem_cons, List.not_mem_nil, or_false, colon_eq_ofNat_iff] at h
        omega
  exact Char.ext (UInt32.toNat_inj.mp hvalue)

theorem hasColon_eq_false {text : String} (h : ':' ∉ text.toList) : hasColon text = false := by
  rw [hasColon, List.contains_eq_mem, decide_eq_false_iff_not, Text.bytes_eq_flatMap]
  intro hmem
  obtain ⟨c, hc, hcolon⟩ := List.mem_flatMap.mp hmem
  rw [eq_colon_of_mem_utf8EncodeChar hcolon] at hc
  exact h hc

theorem not_mem_of_mem_splitOn {text piece : List Char} (h : piece ∈ text.splitOn ':') :
    ':' ∉ piece := by
  induction text generalizing piece with
  | nil =>
    rw [List.splitOn_nil, List.mem_singleton] at h
    simp [h]
  | cons c rest ih =>
    rw [List.splitOn_cons_eq_if_modifyHead] at h
    split at h
    · rcases List.mem_cons.mp h with rfl | h
      · exact List.not_mem_nil
      · exact ih h
    · rename_i hother
      obtain ⟨first, others, hsplit⟩ := List.exists_cons_of_ne_nil (List.splitOn_ne_nil ':' rest)
      rw [hsplit] at h ih
      rcases List.mem_cons.mp h with rfl | h
      · have hne : ':' ≠ c := fun heq => hother (beq_iff_eq.mpr heq.symm)
        exact List.not_mem_cons_of_ne_of_not_mem hne (ih List.mem_cons_self)
      · exact ih (List.mem_cons_of_mem first h)

theorem hasColon_of_mem_pieces {identity piece : String} (h : piece ∈ pieces identity) :
    hasColon piece = false := by
  obtain ⟨text, htext, rfl⟩ := List.mem_map.mp h
  apply hasColon_eq_false
  rw [String.toList_ofList]
  exact not_mem_of_mem_splitOn htext

theorem intercalate_pieces (identity : String) : ":".intercalate (pieces identity) = identity := by
  apply String.toList_inj.mp
  have hcolon : ":".toList = [':'] := by decide
  have hpieces : (pieces identity).map String.toList = identity.toList.splitOn ':' := by
    simp [pieces, List.map_map, Function.comp_def]
  rw [String.toList_intercalate, hcolon, hpieces, List.intercalate_splitOn]

theorem pieces_ne_nil (identity : String) : pieces identity ≠ [] := by
  simp [pieces, List.splitOn_ne_nil]

-- An identity in one piece or in several: the same bytes are hashed.
theorem compositePreimage_pieces {identity : String} (h : ∀ piece ∈ pieces identity, piece ≠ "") :
    compositePreimage kind (pieces identity) = preimage kind identity := by
  have hparts : (pieces identity).forM (checkPart kind) = .ok () := by
    apply forM_of_all_ok
    intro piece hpiece
    simp [checkPart, h piece hpiece, hasColon_of_mem_pieces hpiece]
  simp only [compositePreimage, List.isEmpty_iff, pieces_ne_nil, if_false, hparts,
    intercalate_pieces, bind, Except.bind]

end Pieces

end Key

theorem Field.key_eq_ok {schema : Schema} {parts : List String} {key : Key}
    (h : Field.key schema parts = .ok key) :
    ∃ message, Key.compositePreimage schema.kind parts = .ok message ∧
      key = Key.ofPreimage message := by
  unfold Field.key Key.deriveComposite at h
  cases hmessage : Key.compositePreimage schema.kind parts with
  | error error =>
    rw [hmessage] at h
    cases h
  | ok message =>
    rw [hmessage] at h
    cases h
    exact ⟨message, rfl, rfl⟩

theorem Field.not_hasColon_of_key {schema : Schema} {parts : List String} {key : Key}
    (h : Field.key schema parts = .ok key) {part : String} (hpart : part ∈ parts) :
    Key.hasColon part = false := by
  obtain ⟨_, hmessage, _⟩ := Field.key_eq_ok h
  exact (Key.joined_of_compositePreimage hmessage).colons part (List.mem_cons_of_mem _ hpart)

end LightningRecords

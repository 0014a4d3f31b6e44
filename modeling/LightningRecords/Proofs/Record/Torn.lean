import LightningRecords.Proofs.Cbor.Torn
import LightningRecords.Proofs.Record.RoundTrip

namespace LightningRecords

namespace Value

mutual

theorem needs_toItem (loops : Nat) : (v : Value) → (room : Nat) → v.depth ≤ room →
    Cbor.Needs (Cbor.item loops room) v.toItem.encode
  | .int n, room, _ => by
    have hlow := Int64.le_toInt n
    have hhigh := Int64.toInt_lt n
    rw [Cbor.item_eq]
    exact Cbor.needs_integer loops _ n.toInt (by omega) (by omega)
  | .text s, room, _ => by
    rw [Cbor.item_eq]
    exact Cbor.needs_text loops _ s
  | .bytes b, room, _ => by
    rw [Cbor.item_eq]
    exact Cbor.needs_bytes loops _ b
  | .bool flag, room, _ => by
    rw [Cbor.item_eq]
    exact Cbor.needs_bool loops _ flag
  | .list vs, 0, h => by
    simp only [depth] at h
    omega
  | .list vs, room + 1, h => by
    simp only [depth] at h
    exact Cbor.needs_array loops (reads_toItems loops vs room (by omega))
      (needs_toItems loops vs room (by omega))

theorem needs_toItems (loops : Nat) : (vs : List Value) → (room : Nat) → depthAll vs ≤ room →
    ∀ it ∈ toItems vs, Cbor.Needs (Cbor.item loops room) it.encode
  | [], _, _, it, hit => by simp [toItems] at hit
  | v :: rest, room, h, it, hit => by
    simp only [depthAll] at h
    rcases List.mem_cons.mp hit with rfl | hit
    · exact needs_toItem loops v room (by omega)
    · exact needs_toItems loops rest room (by omega) it hit

end

end Value

namespace Record

theorem needs_toItem {record : Record} (h : record.Storable) (loops : Nat) :
    Cbor.Needs (Cbor.item loops Cbor.maxDepth) record.toItem.encode := by
  refine Cbor.needs_map loops (reads_entries h loops) (forall_mem_entries fun name value hget => ?_)
  rw [Cbor.item_eq]
  exact ⟨Cbor.needs_text loops _ name, Value.needs_toItem loops value _ (h name value hget)⟩

theorem message_endInValue (offset : Nat) :
    DecodeError.message (.malformed ⟨.endInValue, offset⟩) =
      if offset = 0 then "cannot decode record: EOF while parsing a value"
      else s!"cannot decode record: EOF while parsing a value at offset {offset}" := by
  change "cannot decode record: " ++ Cbor.ParseError.message ⟨.endInValue, offset⟩ = _
  unfold Cbor.ParseError.message Cbor.Fault.message
  by_cases h : offset = 0
  · simp only [h, if_true]
    simp
  · simp only [h, if_false]
    simp [toString, ← String.append_assoc]

theorem message_trailing (offset : Nat) :
    DecodeError.message (.malformed ⟨.trailing, offset + 1⟩) =
      s!"cannot decode record: trailing data at offset {offset + 1}" := by
  change "cannot decode record: " ++ Cbor.ParseError.message ⟨.trailing, offset + 1⟩ = _
  unfold Cbor.ParseError.message Cbor.Fault.message
  simp only [Nat.add_eq_zero_iff, Nat.one_ne_zero, and_false, if_false]
  simp [toString, ← String.append_assoc]

-- A record is read from all of its bytes or not at all, and from no more than them:
-- bytes that end too early are refused at their end, wherever it is, and those that go
-- on are refused behind the record. As memory would not hold more, the bytes are no more
-- than a head can count in 64 bits.
theorem decode_torn_or_padded {record : Record} (hfits : record.encode.length < 2 ^ 64)
    (hdepth : ∀ name value, record.get? name = some value → value.depth ≤ 126) :
    (∀ front back : Bytes, front ++ back = record.encode → back ≠ [] →
      (decode front).mapError DecodeError.message =
        .error (if front.length = 0 then "cannot decode record: EOF while parsing a value"
          else s!"cannot decode record: EOF while parsing a value at offset {front.length}")) ∧
    (∀ more : Bytes, more ≠ [] →
      (decode (record.encode ++ more)).mapError DecodeError.message =
        .error s!"cannot decode record: trailing data at offset {record.encode.length + 1}") := by
  constructor
  · intro front back heq hback
    have hneeds := needs_toItem hdepth (front.length + 1)
    have hparse : Cbor.parse front = .error ⟨.endInValue, front.length⟩ := by
      refine Cbor.parse_of_torn hback ?_ ?_
      · rw [heq]
        exact hfits
      · rw [heq]
        exact hneeds
    simp only [decode, hparse, Except.mapError, message_endInValue]
  · intro more hmore
    have hparse : Cbor.parse (record.encode ++ more) =
        .error ⟨.trailing, record.encode.length + 1⟩ :=
      Cbor.parse_of_padded hmore hfits (reads_toItem hdepth _)
    simp only [decode, hparse, Except.mapError, message_trailing]

-- The bytes end within the second character of a text, within the digits of a number
-- in a list, and not at all.
theorem decode_torn_or_padded_mixed :
    let record : Record := OrderedMap.ofList [("a", .text "é𝄞"), ("b", .list [.list [.int 70000]])]
    record.encode.length < 2 ^ 64 ∧
      (decode (record.encode.take 8)).mapError DecodeError.message =
        .error "cannot decode record: EOF while parsing a value at offset 8" ∧
      (decode (record.encode.take 17)).mapError DecodeError.message =
        .error "cannot decode record: EOF while parsing a value at offset 17" ∧
      (decode (record.encode ++ [0xA0])).mapError DecodeError.message =
        .error "cannot decode record: trailing data at offset 20" := by
  intro record
  have hfits : record.encode.length < 2 ^ 64 := by decide +kernel
  have hdepth : ∀ name value, record.get? name = some value → value.depth ≤ 126 := by
    refine storable_ofList ?_
    decide
  obtain ⟨htorn, hpadded⟩ := decode_torn_or_padded hfits hdepth
  have hsplit (n : Nat) := List.take_append_drop n record.encode
  refine ⟨hfits, ?_, ?_, ?_⟩
  · rw [htorn _ _ (hsplit 8) (by decide +kernel)]
    decide +kernel
  · rw [htorn _ _ (hsplit 17) (by decide +kernel)]
    decide +kernel
  · rw [hpadded [0xA0] (by decide)]
    decide +kernel

end Record

end LightningRecords

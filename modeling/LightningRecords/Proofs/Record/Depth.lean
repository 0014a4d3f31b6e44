import LightningRecords.Proofs.Cbor.Limit
import LightningRecords.Proofs.Record.RoundTrip

namespace LightningRecords

namespace Value

mutual

-- A list that is nested deeper than there are levels left is written, but it is
-- refused where the last level is used up.
theorem fails_toItem (loops : Nat) : (v : Value) → (room : Nat) → room < v.depth →
    Cbor.Fails (Cbor.item loops room) v.toItem.encode .tooDeep
  | .list vs, 0, _ => Cbor.tooDeep_array loops (toItems vs)
  | .list vs, room + 1, h => by
    simp only [depth] at h
    exact Cbor.fails_array loops (reads_or_fails_toItems loops vs room)
      (exists_fails_toItems loops vs room (by omega))
  | .int _, _, h | .text _, _, h | .bytes _, _, h | .bool _, _, h => by
    simp only [depth] at h
    omega

theorem reads_or_fails_toItems (loops : Nat) : (vs : List Value) → (room : Nat) →
    ∀ it ∈ toItems vs, Cbor.Reads (Cbor.item loops room) it.encode it ∨
      Cbor.Fails (Cbor.item loops room) it.encode .tooDeep
  | [], _, it, hit => by simp [toItems] at hit
  | v :: rest, room, it, hit => by
    rcases List.mem_cons.mp hit with rfl | hit
    · by_cases h : v.depth ≤ room
      · exact .inl (reads_toItem loops v room h)
      · exact .inr (fails_toItem loops v room (by omega))
    · exact reads_or_fails_toItems loops rest room it hit

theorem exists_fails_toItems (loops : Nat) : (vs : List Value) → (room : Nat) →
    room < depthAll vs →
    ∃ it ∈ toItems vs, Cbor.Fails (Cbor.item loops room) it.encode .tooDeep
  | [], _, h => by
    simp only [depthAll] at h
    omega
  | v :: rest, room, h => by
    simp only [depthAll] at h
    by_cases hv : room < v.depth
    · exact ⟨v.toItem, by simp [toItems], fails_toItem loops v room hv⟩
    · obtain ⟨it, hit, hfail⟩ := exists_fails_toItems loops rest room (by omega)
      exact ⟨it, by simp [toItems, hit], hfail⟩

end

theorem reads_or_fails_toItem (loops room : Nat) (v : Value) :
    Cbor.Reads (Cbor.item loops room) v.toItem.encode v.toItem ∨
      Cbor.Fails (Cbor.item loops room) v.toItem.encode .tooDeep := by
  by_cases h : v.depth ≤ room
  · exact .inl (reads_toItem loops v room h)
  · exact .inr (fails_toItem loops v room (by omega))

-- An empty list within so many others.
def nested : Nat → Value
  | 0 => .list []
  | n + 1 => .list [nested n]

theorem depth_nested (n : Nat) : (nested n).depth = n + 1 := by
  induction n with
  | zero => rfl
  | succ n ih =>
    simp only [nested, depth, depthAll, ih]
    omega

end Value

namespace Record

theorem mem_fields {record : Record} {name : String} {value : Value}
    (h : record.get? name = some value) : (name, value.toItem) ∈ record.fields.toList := by
  rw [OrderedMap.mem_toList_iff, get?_fields, h]
  rfl

-- The names are read, so the first value that is nested too deep is reached.
theorem fails_toItem {record : Record} {name : String} {value : Value}
    (hget : record.get? name = some value) (hdeep : maxValueDepth < value.depth) (loops : Nat) :
    Cbor.Fails (Cbor.item loops Cbor.maxDepth) record.toItem.encode .tooDeep := by
  have hmem := mem_fields hget
  apply Cbor.fails_map
  · refine forall_mem_entries fun name _ _ => ?_
    rw [Cbor.item_eq]
    exact Cbor.reads_text loops _ name
  · exact forall_mem_entries fun _ held _ => Value.reads_or_fails_toItem loops _ held
  · refine ⟨_, List.mem_map.mpr ⟨_, hmem, rfl⟩, ?_⟩
    exact Value.fails_toItem loops value _ hdeep

theorem decode_encode_of_deep {record : Record} {name : String} {value : Value}
    (hfits : record.encode.length < 2 ^ 64) (hget : record.get? name = some value)
    (hdeep : maxValueDepth < value.depth) :
    ∃ offset, decode record.encode = .error (.malformed ⟨.tooDeep, offset⟩) := by
  obtain ⟨offset, hparse⟩ := Cbor.parse_eq_error hfits (fails_toItem hget hdeep _)
  have hparse : Cbor.parse record.encode = .error ⟨.tooDeep, offset⟩ := hparse
  exact ⟨offset, by rw [decode, hparse]⟩

-- A record comes back as it was written or, if some list is nested too deep, not
-- at all: then it is the reader that refuses it. There are no more bytes than a
-- head can count in 64 bits, nor would memory hold more.
theorem decode_encode {record : Record} (hfits : record.encode.length < 2 ^ 64) :
    ((∀ name value, record.get? name = some value → value.depth ≤ 126) →
      decode record.encode = .ok record) ∧
    ((∃ name value, record.get? name = some value ∧ 126 < value.depth) →
      ∃ offset, decode record.encode = .error (.malformed ⟨.tooDeep, offset⟩)) := by
  constructor
  · intro hdepth
    exact decode_encode_of_storable hfits hdepth
  · rintro ⟨name, value, hget, hdeep⟩
    exact decode_encode_of_deep hfits hget hdeep

theorem decode_encode_nested :
    let lists (n : Nat) : Record := OrderedMap.insert ∅ "lists" (Value.nested n)
    (lists 125).encode.length < 2 ^ 64 ∧ decode (lists 125).encode = .ok (lists 125) ∧
      (lists 126).encode.length < 2 ^ 64 ∧
      ∃ offset, decode (lists 126).encode = .error (.malformed ⟨.tooDeep, offset⟩) := by
  intro lists
  have hget (n : Nat) (name : String) (value : Value) (h : (lists n).get? name = some value) :
      value = Value.nested n := by
    rw [OrderedMap.get?_insert, OrderedMap.get?_empty] at h
    split at h
    · exact (Option.some.inj h).symm
    · cases h
  have hfits : (lists 125).encode.length < 2 ^ 64 := by decide +kernel
  have hfits' : (lists 126).encode.length < 2 ^ 64 := by decide +kernel
  refine ⟨hfits, (decode_encode hfits).1 ?_, hfits', (decode_encode hfits').2 ?_⟩
  · intro name value h
    rw [hget 125 name value h, Value.depth_nested]
  · refine ⟨"lists", Value.nested 126, ?_, ?_⟩
    · exact OrderedMap.get?_insert_self _ _ _
    · rw [Value.depth_nested]
      omega

end Record

end LightningRecords

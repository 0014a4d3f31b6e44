import LightningRecords.Proofs.Cbor.Length
import LightningRecords.Proofs.Record.RoundTrip
import Mathlib.Algebra.Order.BigOperators.Group.List

namespace LightningRecords

namespace Cbor

theorem length_writeEntries (es : List (Item × Item)) :
    (writeEntries [] es).length = (es.map fun e => e.1.encode.length + e.2.encode.length).sum := by
  induction es with
  | nil => rfl
  | cons e rest ih =>
    obtain ⟨key, value⟩ := e
    simp only [writeEntries_cons, List.length_append, List.map_cons, List.sum_cons, ih]
    omega

theorem length_encode_map_le {es more : List (Item × Item)} (h : List.Subperm es more) :
    (Item.encode (.map es)).length ≤ (Item.encode (.map more)).length := by
  obtain ⟨kept, hperm, hsublist⟩ := h
  have hentries : (writeEntries [] es).length ≤ (writeEntries [] more).length := by
    rw [length_writeEntries, length_writeEntries, ← (hperm.map _).sum_eq]
    exact (hsublist.map _).sum_le_sum fun _ _ => Nat.zero_le _
  have hcount : es.length ≤ more.length := by
    rw [← hperm.length_eq]
    exact hsublist.length_le
  have hhead := headLength_mono hcount
  rw [length_encode_map, length_encode_map]
  omega

end Cbor

namespace Record

-- A record has no entries but those that it was decoded from, each once.
theorem exists_subperm_of_decode {bytes : Bytes} {record : Record}
    (h : decode bytes = .ok record) :
    ∃ es entries, record.toItem = .map es ∧ Cbor.parse bytes = .ok (.map entries) ∧
      List.Subperm es entries := by
  obtain ⟨entries, hparse, hentries⟩ := exists_of_decode h
  refine ⟨_, entries, rfl, hparse, List.subperm_of_subset ?_ ?_⟩
  · refine (List.Nodup.of_map _ (OrderedMap.keys_nodup record.fields)).map ?_
    rintro ⟨name, item⟩ ⟨name', item'⟩ heq
    cases heq
    rfl
  · intro e he
    obtain ⟨⟨name, item⟩, hfield, rfl⟩ := List.mem_map.mp he
    obtain ⟨value, hget, rfl⟩ := exists_of_mem_fields hfield
    exact hentries name value hget

theorem length_encode_lt_of_decode {bytes : Bytes} {record : Record}
    (h : decode bytes = .ok record) : record.encode.length < 2 * bytes.length := by
  obtain ⟨es, entries, hitem, hparse, hsubperm⟩ := exists_subperm_of_decode h
  have hread := Cbor.length_encode_lt_of_parse hparse
  have hle := Cbor.length_encode_map_le hsubperm
  rw [encode, hitem]
  exact hle.trans_lt hread

-- What could be read stays readable when it is written back unchanged, and writing
-- back what was read changes the bytes only once. What is read is a slice, of less
-- than 2 ^ 63 bytes, so the heads of what is written can count in 64 bits.
theorem decode_encode_of_decode {bytes : Bytes} {record : Record} (hfits : bytes.length < 2 ^ 63)
    (h : decode bytes = .ok record) :
    decode record.encode = .ok record ∧
      (decode record.encode).map encode = (decode bytes).map encode := by
  have hlength := length_encode_lt_of_decode h
  have hback := decode_encode_of_storable (by omega) (storable_of_decode h)
  exact ⟨hback, by rw [hback, h]⟩

-- A map under a tag, of unstated length, with a name in parts, a name twice, a
-- null, a list of unstated length and a number in more digits than it needs.
theorem decode_encode_of_foreign :
    let bytes : Bytes := [0xD9, 0xD9, 0xF7, 0xBF, 0x61, 0x61, 0x01, 0x7F, 0x61, 0x62, 0xFF, 0xF6,
      0x61, 0x61, 0x9F, 0x18, 0x05, 0xFF, 0xFF]
    let record : Record := OrderedMap.insert ∅ "a" (.list [.int 5])
    bytes.length < 2 ^ 63 ∧ decode bytes = .ok record ∧ record.encode ≠ bytes ∧
      decode record.encode = .ok record ∧
      (decode record.encode).map encode = (decode bytes).map encode := by
  intro bytes record
  have hfits : bytes.length < 2 ^ 63 := by decide
  have hread : decode bytes = .ok record := by decide +kernel
  exact ⟨hfits, hread, by decide +kernel, decode_encode_of_decode hfits hread⟩

end Record

end LightningRecords

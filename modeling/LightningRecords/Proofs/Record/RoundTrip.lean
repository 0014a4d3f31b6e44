import LightningRecords.Proofs.Cbor.Nesting
import LightningRecords.Proofs.OrderedMap

namespace LightningRecords

namespace Value

mutual

theorem reads_toItem (loops : Nat) : (v : Value) → (room : Nat) → v.depth ≤ room →
    Cbor.Reads (Cbor.item loops room) v.toItem.encode v.toItem
  | .int n, room, _ => by
    have hlow := Int64.le_toInt n
    have hhigh := Int64.toInt_lt n
    rw [Cbor.item_eq]
    exact Cbor.reads_integer loops _ (by omega) (by omega)
  | .text s, room, _ => by
    rw [Cbor.item_eq]
    exact Cbor.reads_text loops _ s
  | .bytes b, room, _ => by
    rw [Cbor.item_eq]
    exact Cbor.reads_bytes loops _ b
  | .bool flag, room, _ => by
    rw [Cbor.item_eq]
    exact Cbor.reads_bool loops _ flag
  | .list vs, 0, h => by
    simp only [depth] at h
    omega
  | .list vs, room + 1, h => by
    simp only [depth] at h
    exact Cbor.reads_array loops (reads_toItems loops vs room (by omega))

theorem reads_toItems (loops : Nat) : (vs : List Value) → (room : Nat) → depthAll vs ≤ room →
    ∀ it ∈ toItems vs, Cbor.Reads (Cbor.item loops room) it.encode it
  | [], _, _, it, hit => by simp [toItems] at hit
  | v :: rest, room, h, it, hit => by
    simp only [depthAll] at h
    rcases List.mem_cons.mp hit with rfl | hit
    · exact reads_toItem loops v room (by omega)
    · exact reads_toItems loops rest room (by omega) it hit

end

mutual

theorem ofItem_toItem : (v : Value) → ofItem v.toItem = .ok v
  | .int n => by
    rw [toItem, ofItem, if_pos ⟨Int64.minValue_le_toInt n, Int64.toInt_le n⟩, Int64.ofInt_toInt]
  | .text _ => rfl
  | .bytes _ => rfl
  | .bool _ => rfl
  | .list vs => by simp [toItem, ofItem, ofItems_toItems vs, Except.map]

theorem ofItems_toItems : (vs : List Value) → ofItems (toItems vs) = .ok vs
  | [] => rfl
  | v :: rest => by
    simp only [toItems, ofItems, ofItem_toItem v, ofItems_toItems rest]
    rfl

end

mutual

theorem toItem_ofItem : (it : Cbor.Item) → {v : Value} → ofItem it = .ok v → v.toItem = it
  | .integer n, v, h => by
    unfold ofItem at h
    split at h
    · rename_i hrange
      cases h
      have hhigh : n < 2 ^ 63 := by
        have hmax := hrange.2
        rw [Int64.toInt_maxValue] at hmax
        omega
      rw [toItem, Int64.toInt_ofInt_of_le hrange.1 hhigh]
    · cases h
  | .text _, _, h | .bytes _, _, h | .bool _, _, h => by
    cases h
    rfl
  | .array its, v, h => by
    simp only [ofItem] at h
    cases hits : ofItems its with
    | error e =>
      rw [hits] at h
      cases h
    | ok vs =>
      rw [hits] at h
      cases h
      simp only [toItem, toItems_ofItems its hits]
  | .null, _, h | .float _, _, h | .map _, _, h => by cases h

theorem toItems_ofItems : (its : List Cbor.Item) → {vs : List Value} →
    ofItems its = .ok vs → toItems vs = its
  | [], _, h => by
    cases h
    rfl
  | it :: rest, vs, h => by
    obtain ⟨v, hv, h⟩ := bind_eq_ok_iff.mp h
    obtain ⟨more, hmore, h⟩ := bind_eq_ok_iff.mp h
    cases h
    simp only [toItems, toItem_ofItem it hv, toItems_ofItems rest hmore]

end

mutual

theorem nesting_toItem : (v : Value) → v.toItem.nesting = v.depth
  | .int _ | .text _ | .bytes _ | .bool _ => rfl
  | .list vs => by simp only [toItem, Cbor.Item.nesting, depth, nestingAll_toItems vs]

theorem nestingAll_toItems : (vs : List Value) → Cbor.nestingAll (toItems vs) = depthAll vs
  | [] => rfl
  | v :: rest => by
    simp only [toItems, Cbor.nestingAll, depthAll, nesting_toItem v, nestingAll_toItems rest]

end

end Value

namespace Record

-- The deepest nesting of lists that a stored value may have.
def maxValueDepth : Nat := 126

def Storable (record : Record) : Prop :=
  ∀ name value, record.get? name = some value → value.depth ≤ maxValueDepth

theorem get?_fields (record : Record) (name : String) :
    record.fields.get? name = (record.get? name).map Value.toItem := by
  have h := OrderedMap.get?_foldl_insert_toList record (fun _ v => v.toItem) (∅ : Fields) name
  rw [OrderedMap.get?_empty, Option.or_none] at h
  rw [← h, fields, OrderedMap.ofList, List.foldl_map]

-- Every field of a record stands for the value under its name.
theorem exists_of_mem_fields {record : Record} {e : String × Cbor.Item}
    (h : e ∈ record.fields.toList) :
    ∃ value, record.get? e.1 = some value ∧ e.2 = value.toItem := by
  have hget := OrderedMap.get?_of_mem h
  rw [get?_fields, Option.map_eq_some_iff] at hget
  obtain ⟨value, hvalue, heq⟩ := hget
  exact ⟨value, hvalue, heq.symm⟩

-- Every entry that is written is a name with the value under it.
theorem forall_mem_entries {record : Record} {p : Cbor.Item × Cbor.Item → Prop}
    (h : ∀ name value, record.get? name = some value → p (.text name, value.toItem)) :
    ∀ e ∈ record.fields.toList.map fun (name, item) => (Cbor.Item.text name, item), p e := by
  intro e he
  obtain ⟨⟨name, item⟩, hfield, rfl⟩ := List.mem_map.mp he
  obtain ⟨value, hget, rfl⟩ := exists_of_mem_fields hfield
  exact h name value hget

theorem reads_entries {record : Record} (h : record.Storable) (loops : Nat) :
    ∀ e ∈ record.fields.toList.map fun (name, item) => (Cbor.Item.text name, item),
      Cbor.Reads (Cbor.item loops maxValueDepth) e.1.encode e.1 ∧
        Cbor.Reads (Cbor.item loops maxValueDepth) e.2.encode e.2 := by
  refine forall_mem_entries fun name value hget => ⟨?_, ?_⟩
  · rw [Cbor.item_eq]
    exact Cbor.reads_text loops _ name
  · exact Value.reads_toItem loops value _ (h name value hget)

theorem reads_toItem {record : Record} (h : record.Storable) (loops : Nat) :
    Cbor.Reads (Cbor.item loops Cbor.maxDepth) record.toItem.encode record.toItem :=
  Cbor.reads_map loops (reads_entries h loops)

theorem strangeKey?_named (kinds : List Cbor.Kind) (hkinds : Cbor.Kind.text ∉ kinds)
    (named : List (String × Cbor.Item)) :
    strangeKey? kinds (named.map fun (name, item) => (.text name, item)) = none := by
  apply List.find?_eq_none.mpr
  intro kind hkind
  have hne : Cbor.Kind.text ≠ kind := fun heq => hkinds (heq ▸ hkind)
  simp [Cbor.Item.kind, hne]

theorem namedEntries_named (fields : Fields) :
    namedEntries (fields.toList.map fun (name, item) => (.text name, item)) = fields := by
  rw [namedEntries, List.filterMap_map]
  exact (congrArg OrderedMap.ofList List.filterMap_some).trans (OrderedMap.ofList_toList fields)

theorem insertField_toItem (record : Record) (name : String) (value : Value) :
    insertField record (name, value.toItem) = .ok (record.insert name value) := by
  have h := Value.ofItem_toItem value
  cases value <;> simp only [Value.toItem] at h ⊢ <;> simp [insertField, h]

theorem foldlM_insertField (value : String → Value) {named : List (String × Cbor.Item)}
    (h : ∀ e ∈ named, e.2 = (value e.1).toItem) (record : Record) :
    named.foldlM insertField record =
      .ok (named.foldl (fun record e => record.insert e.1 (value e.1)) record) := by
  induction named generalizing record with
  | nil => rfl
  | cons e rest ih =>
    obtain ⟨name, item⟩ := e
    have hitem : item = (value name).toItem := h (name, item) (by simp)
    rw [List.foldlM_cons, hitem, insertField_toItem]
    exact ih (fun e he => h e (List.mem_cons_of_mem _ he)) _

-- The fields come back in another order than the attributes have.
theorem foldlM_insertField_fields (record : Record) :
    record.fields.toList.foldlM insertField ∅ = .ok record := by
  let value (name : String) : Value := (record.get? name).getD default
  rw [foldlM_insertField value]
  · congr 1
    apply OrderedMap.ext_get?
    intro name
    rw [OrderedMap.get?_foldl_insert_toList record.fields (fun name _ => value name), get?_fields,
      OrderedMap.get?_empty, Option.or_none, Option.map_map]
    cases hget : record.get? name with
    | none => rfl
    | some v => simp [value, hget]
  · intro e he
    obtain ⟨v, hget, heq⟩ := exists_of_mem_fields he
    simp [value, hget, heq]

theorem ofItem_toItem (record : Record) : ofItem record.toItem = .ok record := by
  simp only [toItem, ofItem, ofEntries]
  rw [strangeKey?_named _ (by decide), strangeKey?_named _ (by decide), namedEntries_named,
    foldlM_insertField_fields]
  rfl

-- A record that fits into memory and is not nested too deep comes back as it was.
theorem decode_encode_of_storable {record : Record} (hfits : record.encode.length < 2 ^ 64)
    (h : record.Storable) : decode record.encode = .ok record := by
  have hparse : Cbor.parse record.encode = .ok record.toItem :=
    Cbor.parse_eq_ok hfits (reads_toItem h _)
  rw [decode, hparse]
  exact ofItem_toItem record

theorem storable_empty : Storable ∅ := by
  intro name value h
  cases h

theorem Storable.insert {record : Record} (h : record.Storable) (name : String) {value : Value}
    (hvalue : value.depth ≤ maxValueDepth) : Storable (OrderedMap.insert record name value) := by
  intro other held hget
  rw [OrderedMap.get?_insert] at hget
  split at hget
  · cases hget
    exact hvalue
  · exact h other held hget

theorem storable_ofList {attributes : List (String × Value)}
    (h : ∀ a ∈ attributes, a.2.depth ≤ maxValueDepth) :
    Storable (OrderedMap.ofList attributes) := by
  intro name value hget
  have hmem := (OrderedMap.mem_toList_iff _ name value).mpr hget
  exact h (name, value) (OrderedMap.mem_of_mem_ofList hmem)

theorem insertField_eq_ok {record next : Record} {name : String} {item : Cbor.Item}
    (h : insertField record (name, item) = .ok next) :
    next = record ∨ ∃ value, item = value.toItem ∧ next = record.insert name value := by
  unfold insertField at h
  split at h
  · cases h
    exact .inl rfl
  · rename_i heq
    cases heq
    split at h
    · rename_i value hvalue
      cases h
      exact .inr ⟨value, (Value.toItem_ofItem _ hvalue).symm, rfl⟩
    · cases h

theorem mem_of_foldlM_insertField {named : List (String × Cbor.Item)} {start record : Record}
    (h : named.foldlM insertField start = .ok record) {name : String} {value : Value}
    (hget : record.get? name = some value) :
    start.get? name = some value ∨ (name, value.toItem) ∈ named := by
  induction named generalizing start with
  | nil =>
    cases h
    exact .inl hget
  | cons e rest ih =>
    obtain ⟨other, item⟩ := e
    rw [List.foldlM_cons] at h
    obtain ⟨next, hnext, h⟩ := bind_eq_ok_iff.mp h
    rcases ih h with hget | hmem
    · rcases insertField_eq_ok hnext with rfl | ⟨held, rfl, rfl⟩
      · exact .inl hget
      · by_cases hname : name = other
        · rw [hname, OrderedMap.get?_insert_self] at hget
          cases hget
          exact .inr (by simp [hname])
        · rw [OrderedMap.get?_insert_of_ne _ _ hname] at hget
          exact .inl hget
    · exact .inr (List.mem_cons_of_mem _ hmem)

-- Whatever is decoded, each attribute with its value is one of the entries read.
theorem exists_of_decode {bytes : Bytes} {record : Record} (h : decode bytes = .ok record) :
    ∃ entries, Cbor.parse bytes = .ok (.map entries) ∧
      ∀ name value, record.get? name = some value → (.text name, value.toItem) ∈ entries := by
  unfold decode at h
  split at h
  · rename_i root hroot
    cases root with
    | map entries =>
      refine ⟨entries, hroot, fun name value hget => ?_⟩
      simp only [ofItem, ofEntries] at h
      split at h
      · cases h
      · obtain ⟨read, hread, h⟩ := bind_eq_ok_iff.mp h
        split at h
        · cases h
        · cases h
          rcases mem_of_foldlM_insertField hread hget with hget | hmem
          · cases hget
          · obtain ⟨⟨key, item⟩, hin, hname⟩ :=
              List.mem_filterMap.mp (OrderedMap.mem_of_mem_ofList hmem)
            split at hname
            · rename_i heq
              cases heq
              cases hname
              exact hin
            · cases hname
    | _ => cases h
  · cases h

-- The map around the attributes takes one of the levels that a reader allows.
theorem storable_of_decode {bytes : Bytes} {record : Record} (h : decode bytes = .ok record) :
    record.Storable := by
  obtain ⟨entries, hparse, hentries⟩ := exists_of_decode h
  intro name value hget
  have hnesting := Cbor.nesting_le_of_parse hparse
  have hall : Cbor.nestingEntries entries ≤ maxValueDepth := by
    simp only [Cbor.Item.nesting, Cbor.maxDepth] at hnesting
    simp only [maxValueDepth]
    omega
  have hvalue := (Cbor.nestingEntries_le_iff.mp hall _ (hentries name value hget)).2
  rwa [Value.nesting_toItem] at hvalue

-- Records of any length can be had.
theorem length_encode_bytes {b : Bytes} (hleast : 0x10000 ≤ b.length)
    (hmost : b.length < 0x100000000) :
    (encode (OrderedMap.insert ∅ "alias" (.bytes b))).length = b.length + 12 := by
  have hname : (Text.bytes "alias").length = 5 := by decide +kernel
  have hencode : encode (OrderedMap.insert ∅ "alias" (.bytes b)) = Cbor.writeHead 5 1
      (Cbor.writeHead 3 5 (Text.bytes "alias" ++ Cbor.writeHead 2 b.length (b ++ []))) := rfl
  have hshort : ¬b.length < 24 ∧ ¬b.length < 0x100 ∧ ¬b.length < 0x10000 := by omega
  rw [hencode]
  simp [Cbor.writeHead, hname, hshort, hmost]
  omega

end Record

end LightningRecords

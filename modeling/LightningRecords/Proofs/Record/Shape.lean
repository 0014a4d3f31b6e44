import LightningRecords.Proofs.Cbor.Entries
import LightningRecords.Proofs.Record.RoundTrip

namespace LightningRecords

namespace Cbor

mutual

-- What an item holds once the lists around it are taken away, in order.
def Item.leaves : Item → List Item
  | .array items => leavesAll items
  | item => [item]

def leavesAll : List Item → List Item
  | [] => []
  | item :: rest => item.leaves ++ leavesAll rest

end

end Cbor

namespace Value

open Cbor (Item)

-- Why an item that is no list is no value.
def flaw? : Item → Option ValueError
  | .integer n => if -2 ^ 63 ≤ n ∧ n < 2 ^ 63 then none else some (.outOfRange n)
  | .null => some (.unsupported .null)
  | .float _ => some (.unsupported .float)
  | .map _ => some (.unsupported .map)
  | .text _ | .bytes _ | .bool _ | .array _ => none

-- Why an item is no value: the first of its leaves that is none tells.
def firstFlaw? (item : Item) : Option ValueError := item.leaves.findSome? flaw?

mutual

theorem ofItem_tells : (item : Item) → Tells (firstFlaw? item) (ofItem item)
  | .array items => (ofItems_tells items).map Value.list
  | .integer n => by
    have hlow : Int64.minValue.toInt = -2 ^ 63 := by decide
    have hhigh : Int64.maxValue.toInt = 2 ^ 63 - 1 := by decide
    by_cases hrange : -2 ^ 63 ≤ n ∧ n < 2 ^ 63
    · have hin : Int64.minValue.toInt ≤ n ∧ n ≤ Int64.maxValue.toInt := by omega
      simp only [firstFlaw?, Item.leaves, List.findSome?_singleton, flaw?, hrange, and_self, if_true,
        ofItem, hin]
      exact tells_ok _
    · have hout : ¬(Int64.minValue.toInt ≤ n ∧ n ≤ Int64.maxValue.toInt) := by omega
      simp only [firstFlaw?, Item.leaves, List.findSome?_singleton, flaw?, hrange, if_false, ofItem,
        hout]
      exact tells_error _
  | .text _ => tells_ok _
  | .bytes _ => tells_ok _
  | .bool _ => tells_ok _
  | .null | .float _ | .map _ => tells_error _

theorem ofItems_tells : (items : List Item) →
    Tells ((Cbor.leavesAll items).findSome? flaw?) (ofItems items)
  | [] => tells_ok []
  | item :: rest => by
    rw [Cbor.leavesAll, List.findSome?_append, ofItems]
    exact (ofItem_tells item).bind fun value => (ofItems_tells rest).map (value :: ·)

end

theorem ofItem_eq_ok_iff {item : Item} {value : Value} :
    ofItem item = .ok value ↔ item = value.toItem := by
  constructor
  · intro h
    exact (toItem_ofItem item h).symm
  · rintro rfl
    exact ofItem_toItem value

theorem firstFlaw?_eq_none_iff {item : Item} :
    firstFlaw? item = none ↔ ∃ value : Value, item = value.toItem := by
  simp only [← ofItem_eq_ok_iff]
  constructor
  · intro h
    exact Tells.exists_ok (h ▸ ofItem_tells item)
  · rintro ⟨value, hvalue⟩
    exact (ofItem_tells item).eq_none hvalue

end Value

namespace Record

open Cbor (Item Kind Holds)

-- What is wrong with an entry of a map that is to be a record.
def entryFlaw? : Item → Item → Option DecodeError
  | .text _, .null => none
  | .text name, item => (Value.firstFlaw? item).map (.badValue name)
  | key, _ => some (.nameNotText key.kind)

-- In the order of the keys nothing is wrong before this.
def FirstFlaw (entries : List (Item × Item)) (error : DecodeError) : Prop :=
  ∃ key value, Holds entries key value ∧ entryFlaw? key value = some error ∧
    ∀ key' value', Holds entries key' value' → Cbor.compareKeys key' key = .lt →
      entryFlaw? key' value' = none

section Entry

variable {record next : Record} {name : String} {key item : Item}

theorem entryFlaw?_of_kind_ne (h : key.kind ≠ .text) :
    entryFlaw? key item = some (.nameNotText key.kind) := by
  cases key <;> first | rfl | exact absurd rfl h

theorem entryFlaw?_of_ne_null (h : item ≠ .null) :
    entryFlaw? (.text name) item = (Value.firstFlaw? item).map (.badValue name) := by
  cases item <;> first | rfl | exact absurd rfl h

theorem entryFlaw?_eq_none_iff :
    entryFlaw? key item = none ↔
      ∃ name, key = .text name ∧ (item = .null ∨ ∃ value : Value, item = value.toItem) := by
  by_cases hkey : key.kind = .text
  · obtain ⟨name, rfl⟩ := Cbor.kind_eq_text_iff.mp hkey
    by_cases hnull : item = .null
    · simp [hnull, entryFlaw?]
    · simp [entryFlaw?_of_ne_null hnull, Value.firstFlaw?_eq_none_iff, hnull]
  · rw [entryFlaw?_of_kind_ne hkey]
    simp only [reduceCtorEq, false_iff]
    rintro ⟨name, rfl, _⟩
    exact hkey rfl

theorem insertField_of_ne_null (h : item ≠ .null) :
    insertField record (name, item) =
      match Value.ofItem item with
      | .ok value => .ok (record.insert name value)
      | .error error => .error (.badValue name error) := by
  cases item <;> first | rfl | exact absurd rfl h

theorem insertField_tells (record : Record) (name : String) (item : Item) :
    Tells (entryFlaw? (.text name) item) (insertField record (name, item)) := by
  by_cases hnull : item = .null
  · subst hnull
    exact tells_ok record
  · rw [entryFlaw?_of_ne_null hnull, insertField_of_ne_null hnull]
    cases hitem : Value.ofItem item with
    | error error =>
      rw [(Value.ofItem_tells item error).mp hitem]
      exact tells_error _
    | ok value =>
      rw [(Value.ofItem_tells item).eq_none hitem]
      exact tells_ok _

theorem get?_of_insertField (h : insertField record (name, item) = .ok next) {other : String}
    (hne : other ≠ name) : next.get? other = record.get? other := by
  rcases insertField_eq_ok h with rfl | ⟨value, rfl, rfl⟩
  · rfl
  · exact OrderedMap.get?_insert_of_ne _ _ hne

end Entry

theorem get?_of_foldlM_insertField {named : List (String × Item)}
    (hn : (named.map Prod.fst).Nodup) {start record : Record}
    (h : named.foldlM insertField start = .ok record) :
    (∀ name (value : Value), (name, value.toItem) ∈ named → record.get? name = some value) ∧
      ∀ name, name ∉ named.map Prod.fst → record.get? name = start.get? name := by
  induction named generalizing start with
  | nil =>
    cases h
    simp
  | cons e rest ih =>
    obtain ⟨first, item⟩ := e
    obtain ⟨hnot, hrest⟩ := List.nodup_cons.mp hn
    rw [List.foldlM_cons] at h
    obtain ⟨next, hnext, h⟩ := bind_eq_ok_iff.mp h
    obtain ⟨hlater, hframe⟩ := ih hrest h
    constructor
    · intro name value hmem
      rcases List.mem_cons.mp hmem with heq | hmem
      · obtain ⟨rfl, rfl⟩ := Prod.mk.inj heq
        rw [insertField_toItem] at hnext
        cases hnext
        rw [hframe _ hnot, OrderedMap.get?_insert_self]
      · exact hlater name value hmem
    · intro name hname
      rw [List.map_cons, List.mem_cons, not_or] at hname
      rw [hframe name hname.2, get?_of_insertField hnext hname.1]

section Map

variable {entries : List (Item × Item)}

theorem namedEntries_concat (entry : Item × Item) :
    namedEntries (entries ++ [entry]) =
      match entry with
      | (.text name, item) => (namedEntries entries).insert name item
      | _ => namedEntries entries := by
  obtain ⟨key, item⟩ := entry
  simp only [namedEntries, OrderedMap.ofList, List.filterMap_append, List.foldl_append]
  cases key <;> rfl

theorem get?_namedEntries {name : String} {item : Item} :
    (namedEntries entries).get? name = some item ↔ Holds entries (.text name) item := by
  -- from the end, as it is the last entry under a name that stays
  induction entries using List.reverseRecOn with
  | nil =>
    simp only [Cbor.not_holds_nil, iff_false]
    intro h
    cases h
  | append_singleton entries entry ih =>
    obtain ⟨key, last⟩ := entry
    rw [namedEntries_concat, Cbor.holds_concat, ← ih]
    by_cases hkey : key.kind = .text
    · obtain ⟨other, rfl⟩ := Cbor.kind_eq_text_iff.mp hkey
      by_cases hname : name = other
      · subst hname
        simp [Std.ReflCmp.compare_self, eq_comm]
      · simp [OrderedMap.get?_insert_of_ne _ _ hname, hname]
    · have hne : Item.text name ≠ key := by
        rintro rfl
        exact hkey rfl
      cases key <;> simp_all

variable {kinds : List Kind} {kind : Kind}

theorem strangeKey?_eq_none_iff :
    strangeKey? kinds entries = none ↔ ∀ e ∈ entries, e.1.kind ∉ kinds := by
  simp only [strangeKey?, List.find?_eq_none, List.any_eq_true, decide_eq_true_eq, not_exists,
    not_and]
  constructor
  · intro h e he hkind
    exact h _ hkind e he rfl
  · rintro h kind hkind e he rfl
    exact h e he hkind

theorem strangeKey?_eq_some (hsorted : kinds.Pairwise fun a b => a.rank < b.rank)
    (h : strangeKey? kinds entries = some kind) :
    kind ∈ kinds ∧ (∃ e ∈ entries, e.1.kind = kind) ∧
      ∀ e ∈ entries, e.1.kind ∈ kinds → kind.rank ≤ e.1.kind.rank := by
  obtain ⟨hany, before, after, rfl, hbefore⟩ := List.find?_eq_some_iff_append.mp h
  simp only [List.any_eq_true, decide_eq_true_eq] at hany
  refine ⟨by simp, hany, fun e he hkind => ?_⟩
  obtain ⟨_, hafter, _⟩ := List.pairwise_append.mp hsorted
  rcases List.mem_append.mp hkind with hkind | hkind
  · have hnone := hbefore _ hkind
    simp only [Bool.not_eq_true', List.any_eq_false, decide_eq_true_eq] at hnone
    exact absurd rfl (hnone e he)
  · rcases List.mem_cons.mp hkind with heq | hkind
    · rw [heq]
    · exact ((List.pairwise_cons.mp hafter).1 _ hkind).le

theorem FirstFlaw.unique {error error' : DecodeError} (h : FirstFlaw entries error)
    (h' : FirstFlaw entries error') : error = error' := by
  obtain ⟨key, value, hholds, hflaw, hbefore⟩ := h
  obtain ⟨key', value', hholds', hflaw', hbefore'⟩ := h'
  cases horder : Cbor.compareKeys key key' with
  | lt =>
    rw [hbefore' key value hholds horder] at hflaw
    cases hflaw
  | gt =>
    have hswap : Cbor.compareKeys key' key = .lt := by rw [Cbor.compareKeys_swap, horder]; rfl
    rw [hbefore key' value' hholds' hswap] at hflaw'
    cases hflaw'
  | eq =>
    -- one name has one last value, and of other keys only the kind is told
    obtain ⟨hkind, hsame⟩ := Cbor.of_compareKeys_eq horder
    by_cases htext : key.kind = .text
    · have heq := hsame htext
      subst heq
      have heq := hholds.unique hholds'
      subst heq
      exact Option.some.inj (hflaw.symm.trans hflaw')
    · rw [entryFlaw?_of_kind_ne htext] at hflaw
      rw [entryFlaw?_of_kind_ne (hkind ▸ htext), ← hkind] at hflaw'
      exact Option.some.inj (hflaw.symm.trans hflaw')

-- Keys of the given kinds are no names. The first of them is the first flaw if there is
-- none among the keys of earlier kinds.
theorem firstFlaw_of_strangeKey? (hsorted : kinds.Pairwise fun a b => a.rank < b.rank)
    (htext : Kind.text ∉ kinds) (h : strangeKey? kinds entries = some kind)
    (hothers : ∀ key value, Holds entries key value → key.kind ∉ kinds →
      key.kind.rank < kind.rank → entryFlaw? key value = none) :
    FirstFlaw entries (.nameNotText kind) := by
  obtain ⟨hmem, ⟨⟨key, first⟩, he, rfl⟩, hleast⟩ := strangeKey?_eq_some hsorted h
  have hne : key.kind ≠ .text := fun heq => htext (heq ▸ hmem)
  obtain ⟨value, hholds⟩ := Cbor.exists_holds_of_mem he
  refine ⟨key, value, hholds, entryFlaw?_of_kind_ne hne, fun key' value' hholds' hlt => ?_⟩
  rcases Cbor.of_compareKeys_lt hlt with hrank | ⟨_, name, _, rfl, _⟩
  · refine hothers key' value' hholds' (fun hkind => ?_) hrank
    have := hleast _ hholds'.mem hkind
    simp only at this
    omega
  · exact absurd rfl hne

theorem firstFlaw_of_early (h : strangeKey? [.integer, .bytes] entries = some kind) :
    FirstFlaw entries (.nameNotText kind) := by
  refine firstFlaw_of_strangeKey? (by simp [Kind.rank]) (by simp) h fun key value _ hnot hrank => ?_
  have hmem := (strangeKey?_eq_some (by simp [Kind.rank]) h).1
  exfalso
  revert hnot hrank hmem
  cases key.kind <;> cases kind <;> simp [Kind.rank]

-- Among the names the first flaw is in the first of them, by length and then by bytes,
-- whose value has one.
theorem firstFlaw_of_names {error : DecodeError}
    (hearly : strangeKey? [.integer, .bytes] entries = none)
    (h : (namedEntries entries).toList.findSome? (fun e => entryFlaw? (.text e.1) e.2) =
      some error) : FirstFlaw entries error := by
  obtain ⟨name, item, hget, hflaw, hbefore⟩ := OrderedMap.findSome?_toList_eq_some_iff.mp h
  refine ⟨.text name, item, get?_namedEntries.mp hget, hflaw, fun key' value' hholds hlt => ?_⟩
  rcases Cbor.of_compareKeys_lt hlt with hrank | ⟨other, _, rfl, heq, hlt⟩
  · have hnot := strangeKey?_eq_none_iff.mp hearly _ hholds.mem
    change key'.kind.rank < 2 at hrank
    change key'.kind ∉ [.integer, .bytes] at hnot
    exfalso
    revert hrank hnot
    cases key'.kind <;> simp [Kind.rank]
  · cases heq
    exact hbefore other value' (get?_namedEntries.mpr hholds) hlt

theorem firstFlaw_of_late (hearly : strangeKey? [.integer, .bytes] entries = none)
    (hnames : ∀ name value, Holds entries (.text name) value →
      entryFlaw? (.text name) value = none)
    (h : strangeKey? [.array, .map, .bool, .null, .float] entries = some kind) :
    FirstFlaw entries (.nameNotText kind) := by
  refine firstFlaw_of_strangeKey? (by simp [Kind.rank]) (by simp) h ?_
  intro key value hholds hnotLate _
  have hnotEarly := strangeKey?_eq_none_iff.mp hearly _ hholds.mem
  have htext : key.kind = .text := by
    simp only at hnotEarly
    revert hnotEarly hnotLate
    cases key.kind <;> simp
  obtain ⟨name, rfl⟩ := Cbor.kind_eq_text_iff.mp htext
  exact hnames name value hholds

theorem kind_eq_text_of_strangeKey? {key value : Item}
    (hearly : strangeKey? [.integer, .bytes] entries = none)
    (hlate : strangeKey? [.array, .map, .bool, .null, .float] entries = none)
    (h : Holds entries key value) : key.kind = .text := by
  have hnotEarly := strangeKey?_eq_none_iff.mp hearly _ h.mem
  have hnotLate := strangeKey?_eq_none_iff.mp hlate _ h.mem
  simp only at hnotEarly hnotLate
  revert hnotEarly hnotLate
  cases key.kind <;> simp

-- The fields that were set are the names whose last value is no null.
theorem get?_of_names {record : Record}
    (h : (namedEntries entries).toList.foldlM insertField ∅ = .ok record) (name : String)
    (value : Value) : record.get? name = some value ↔ Holds entries (.text name) value.toItem := by
  rw [← get?_namedEntries, ← OrderedMap.mem_toList_iff (namedEntries entries)]
  constructor
  · intro hget
    rcases mem_of_foldlM_insertField h hget with hget | hmem
    · cases hget
    · exact hmem
  · exact (get?_of_foldlM_insertField (namedEntries entries).keys_nodup h).1 name value

-- A map is a record if nothing is wrong with any entry, and otherwise fails with what
-- is wrong first. The keys are gone through in three stages: kinds before the names, the
-- names, kinds behind them.
theorem ofEntries_of_flaw (entries : List (Item × Item)) :
    match ofEntries entries with
    | .error error => FirstFlaw entries error
    | .ok record =>
      (∀ key value, Holds entries key value → entryFlaw? key value = none) ∧
        ∀ name (value : Value), record.get? name = some value ↔
          Holds entries (.text name) value.toItem := by
  unfold ofEntries
  cases hearly : strangeKey? [.integer, .bytes] entries with
  | some kind => exact firstFlaw_of_early hearly
  | none =>
    have hfold := tells_foldlM (fun record e => insertField_tells record e.1 e.2)
      (namedEntries entries).toList ∅
    cases hflaw : (namedEntries entries).toList.findSome? fun e => entryFlaw? (.text e.1) e.2 with
    | some error =>
      simp only [(hfold error).mpr hflaw, bind, Except.bind]
      exact firstFlaw_of_names hearly hflaw
    | none =>
      obtain ⟨record, hrecord⟩ := Tells.exists_ok (hflaw ▸ hfold)
      have hnames : ∀ name value, Holds entries (.text name) value →
          entryFlaw? (.text name) value = none := by
        intro name value hholds
        rw [← get?_namedEntries, ← OrderedMap.mem_toList_iff] at hholds
        exact List.findSome?_eq_none_iff.mp hflaw _ hholds
      simp only [hrecord, bind, Except.bind]
      cases hlate : strangeKey? [.array, .map, .bool, .null, .float] entries with
      | some kind => exact firstFlaw_of_late hearly hnames hlate
      | none =>
        refine ⟨fun key value hholds => ?_, get?_of_names hrecord⟩
        obtain ⟨name, rfl⟩ :=
          Cbor.kind_eq_text_iff.mp (kind_eq_text_of_strangeKey? hearly hlate hholds)
        exact hnames name value hholds

theorem ofEntries_eq_error_iff {error : DecodeError} :
    ofEntries entries = .error error ↔ FirstFlaw entries error := by
  have h := ofEntries_of_flaw entries
  cases hentries : ofEntries entries with
  | error found =>
    rw [hentries] at h
    constructor
    · intro heq
      cases heq
      exact h
    · intro hflaw
      rw [FirstFlaw.unique h hflaw]
  | ok record =>
    rw [hentries] at h
    simp only [reduceCtorEq, false_iff]
    rintro ⟨key, value, hholds, hflaw, _⟩
    rw [h.1 key value hholds] at hflaw
    cases hflaw

theorem ofEntries_eq_ok_iff {record : Record} :
    ofEntries entries = .ok record ↔
      (∀ key value, Holds entries key value → entryFlaw? key value = none) ∧
        ∀ name (value : Value), record.get? name = some value ↔
          Holds entries (.text name) value.toItem := by
  have h := ofEntries_of_flaw entries
  cases hentries : ofEntries entries with
  | error found =>
    rw [hentries] at h
    obtain ⟨key, value, hholds, hflaw, _⟩ := h
    simp only [reduceCtorEq, false_iff]
    rintro ⟨hclean, _⟩
    rw [hclean key value hholds] at hflaw
    cases hflaw
  | ok found =>
    rw [hentries] at h
    constructor
    · intro heq
      cases heq
      exact h
    · rintro ⟨_, hrecord⟩
      congr 1
      refine OrderedMap.ext_get? fun name => Option.ext fun value => ?_
      rw [h.2, hrecord]

end Map

-- What is decoded is a map whose keys are names and whose values, as far as they are no
-- nulls, stand for values of a record: that record, with the last value under each name.
-- Anything else fails with what is wrong first, in the order of the keys and then in that
-- of the items of a list.
theorem decode_tells_shape {bytes : Bytes} {root : Item} (hparse : Cbor.parse bytes = .ok root) :
    (∀ record, decode bytes = .ok record ↔
      ∃ entries, root = .map entries ∧
        (∀ key item, Holds entries key item →
          ∃ name, key = .text name ∧ (item = .null ∨ ∃ value : Value, item = value.toItem)) ∧
        ∀ name (value : Value), record.get? name = some value ↔
          Holds entries (.text name) value.toItem) ∧
    (∀ error, decode bytes = .error error ↔
      (root.kind ≠ .map ∧ error = .notMap root.kind) ∨
        ∃ entries, root = .map entries ∧ FirstFlaw entries error) ∧
    (∀ (item : Item) (value : Value), Value.ofItem item = .ok value ↔ item = value.toItem) ∧
    ∀ (item : Item) (error : ValueError),
      Value.ofItem item = .error error ↔ item.leaves.findSome? Value.flaw? = some error := by
  have hdecode : decode bytes = ofItem root := by rw [decode, hparse]
  refine ⟨fun record => ?_, fun error => ?_, fun _ _ => Value.ofItem_eq_ok_iff,
    fun item error => Value.ofItem_tells item error⟩
  · rw [hdecode]
    cases root with
    | map entries =>
      simp only [ofItem, ofEntries_eq_ok_iff, entryFlaw?_eq_none_iff, Item.map.injEq,
        exists_eq_left']
    | _ => simp [ofItem]
  · rw [hdecode]
    cases root with
    | map entries => simp [ofItem, ofEntries_eq_error_iff, Item.kind]
    | _ => simp [ofItem, Item.kind, eq_comm]

-- A name twice, the second time with a null; and three things that are wrong with one
-- map, of which the one under the shortest name is told.
theorem decode_tells_shape_mixed :
    let twice : Bytes := [0xA3, 0x61, 0x61, 0x01, 0x61, 0x61, 0xF6, 0x61, 0x62, 0x05]
    let wrong : Bytes := [0xA3, 0xF5, 0x00, 0x62, 0x62, 0x62, 0x82, 0x01, 0xF9, 0x3E, 0x00,
      0x61, 0x61, 0x81, 0xF6]
    let record : Record := OrderedMap.insert ∅ "b" (.int 5)
    (decode twice = .ok record ∧
      ∀ value : Value,
        ¬Holds [(.text "a", .integer 1), (.text "a", .null), (.text "b", .integer 5)] (.text "a")
          value.toItem) ∧
      decode wrong = .error (.badValue "a" (.unsupported .null)) := by
  have htwice : Cbor.parse [0xA3, 0x61, 0x61, 0x01, 0x61, 0x61, 0xF6, 0x61, 0x62, 0x05] =
      .ok (.map [(.text "a", .integer 1), (.text "a", .null), (.text "b", .integer 5)]) := by rfl
  have hwrong : Cbor.parse [0xA3, 0xF5, 0x00, 0x62, 0x62, 0x62, 0x82, 0x01, 0xF9, 0x3E, 0x00,
        0x61, 0x61, 0x81, 0xF6] =
      .ok (.map [(.bool true, .integer 0),
        (.text "bb", .array [.integer 1, .float [0x3E, 0x00]]), (.text "a", .array [.null])]) := by
    rfl
  intro twice wrong record
  constructor
  · have hread : decode twice = .ok record := by decide +kernel
    obtain ⟨entries, heq, _, hget⟩ := ((decode_tells_shape htwice).1 record).mp hread
    cases heq
    refine ⟨hread, fun value hholds => ?_⟩
    have hnone : record.get? "a" = none := by decide +kernel
    rw [(hget "a" value).mpr hholds] at hnone
    cases hnone
  · refine ((decode_tells_shape hwrong).2.1 _).mpr (.inr ⟨_, rfl, ?_⟩)
    refine ⟨.text "a", .array [.null], ⟨[_, _], [], rfl, by simp⟩, rfl,
      fun key' item' hholds hlt => ?_⟩
    exfalso
    have hmem := hholds.mem
    simp only [List.mem_cons, List.not_mem_nil, or_false, Prod.mk.injEq] at hmem
    rcases hmem with ⟨rfl, _⟩ | ⟨rfl, _⟩ | ⟨rfl, _⟩ <;> revert hlt <;> decide +kernel

end Record

end LightningRecords

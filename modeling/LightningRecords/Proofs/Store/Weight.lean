import LightningRecords.Proofs.Store.Seats
import Mathlib.Algebra.Order.BigOperators.Group.List
import Mathlib.Data.List.Perm.Subperm

namespace LightningRecords

namespace Tables

variable {tables other : Tables} {table : String} {key bytes : Bytes}

-- All rows, each with the table that it is in.
def rows (tables : Tables) : List (String × Bytes × Bytes) :=
  tables.toList.flatMap fun (table, rows) => rows.toList.map (Prod.mk table)

-- Bytes that some rows take.
def weightOf (rows : List (String × Bytes × Bytes)) : Nat :=
  (rows.map fun (_, key, bytes) => key.length + bytes.length).sum

theorem mem_rows_iff : (table, key, bytes) ∈ tables.rows ↔
    ∃ rows, tables.get? table = some rows ∧ rows.get? key = some bytes := by
  simp only [rows, List.mem_flatMap, List.mem_map]
  constructor
  · rintro ⟨⟨_, rows⟩, hrows, ⟨_, _⟩, hrow, ⟨⟩⟩
    exact ⟨rows, OrderedMap.get?_of_mem hrows, OrderedMap.get?_of_mem hrow⟩
  · rintro ⟨rows, hrows, hrow⟩
    exact ⟨(table, rows), (OrderedMap.mem_toList_iff _ _ _).mpr hrows, (key, bytes),
      (OrderedMap.mem_toList_iff _ _ _).mpr hrow, rfl⟩

theorem rows_nodup (tables : Tables) : tables.rows.Nodup := by
  have hinside (rows : Table) : rows.toList.Nodup := .of_map _ rows.keys_nodup
  have hnames : tables.toList.Pairwise fun a b => a.1 ≠ b.1 :=
    List.pairwise_map.mp tables.keys_nodup
  refine List.nodup_flatMap.mpr ⟨fun entry _ => ?_, hnames.imp fun hne => ?_⟩
  · exact (hinside entry.2).map (Prod.mk_right_injective entry.1)
  · intro row hrow hother
    obtain ⟨_, _, rfl⟩ := List.mem_map.mp hrow
    obtain ⟨_, _, heq⟩ := List.mem_map.mp hother
    exact hne (congrArg Prod.fst heq).symm

theorem weight_eq (tables : Tables) : tables.weight = weightOf tables.rows := by
  have hsum {ι : Type} (f : ι → Nat) (l : List ι) :
      l.foldl (fun n i => n + f i) 0 = (l.map f).sum := by
    rw [List.sum_eq_foldl_nat, List.foldl_map]
  simp only [weight, weightOf, rows, hsum, List.flatMap_def, List.map_flatten, List.sum_flatten,
    List.map_map, Function.comp_def]

-- Rows that are in no more than these weigh no more.
theorem weightOf_le {some more : List (String × Bytes × Bytes)} (hnodup : some.Nodup)
    (hsubset : some ⊆ more) : weightOf some ≤ weightOf more := by
  obtain ⟨kept, hperm, hsublist⟩ := List.subperm_of_subset hnodup hsubset
  rw [weightOf, ← (hperm.map _).sum_eq]
  exact (hsublist.map _).sum_le_sum fun _ _ => Nat.zero_le _

theorem weight_le {other' : Tables}
    (h : ∀ row ∈ tables.rows, row ∈ other.rows ∨ row ∈ other'.rows) :
    tables.weight ≤ other.weight + other'.weight := by
  have hsubset : tables.rows ⊆ other.rows ++ other'.rows := fun row hrow =>
    List.mem_append.mpr (h row hrow)
  have hle := weightOf_le tables.rows_nodup hsubset
  simpa only [weight_eq, weightOf, List.map_append, List.sum_append] using hle

theorem length_le_weight (h : (table, key, bytes) ∈ tables.rows) :
    bytes.length ≤ tables.weight := by
  have hle := weightOf_le (List.nodup_singleton _) (List.cons_subset.mpr ⟨h, List.nil_subset _⟩)
  rw [← weight_eq] at hle
  simp only [weightOf, List.map_cons, List.map_nil, List.sum_singleton] at hle
  omega

end Tables

namespace Environment

variable {e e' : Environment} {table : String} {key bytes : Bytes}

theorem mem_rows_of_contents (h : (e.contents table).get? key = some bytes) :
    (table, key, bytes) ∈ e.tables.rows := by
  cases hrows : e.tables.get? table with
  | none =>
    rw [contents_of_none hrows] at h
    cases h
  | some rows =>
    rw [contents_of_some hrows] at h
    exact Tables.mem_rows_iff.mpr ⟨rows, hrows, h⟩

-- If the weight is all that counts, everything fits a map that has room for the rows from
-- before and the rows from after.
theorem fits_of_weight (hcapacity : e.capacity = .byWeight)
    (h : e.tables.weight + e'.tables.weight ≤ e.mapSize.toNat) : e.Fits e' where
  rows := by
    intro table key bytes hfound
    have hle := Tables.length_le_weight (mem_rows_of_contents hfound)
    omega
  tables := by
    intro tables hmixes
    have hle : tables.weight ≤ e.tables.weight + e'.tables.weight := by
      refine Tables.weight_le ?_
      rintro ⟨table, key, bytes⟩ hrow
      obtain ⟨rows, hrows, hfound⟩ := Tables.mem_rows_iff.mp hrow
      exact (hmixes table rows hrows key bytes hfound).imp mem_rows_of_contents
        mem_rows_of_contents
    simp only [hcapacity, Capacity.byWeight, decide_eq_false_iff_not]
    omega

end Environment

end LightningRecords

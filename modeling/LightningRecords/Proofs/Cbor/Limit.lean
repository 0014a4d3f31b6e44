import LightningRecords.Proofs.Cbor.ReadBack

namespace LightningRecords.Cbor

-- The step fails within these bytes, whatever follows them, as long as they end
-- within 64-bit offsets.
def Fails {α : Type} (step : Step α) (bytes : Bytes) (fault : Fault) : Prop :=
  ∀ rest offset, offset + bytes.length < 2 ^ 64 →
    ∃ place, step ⟨bytes ++ rest, offset⟩ = .error ⟨fault, place⟩

variable {α β : Type} {fault : Fault} {a : α}

theorem Fails.bind {p : Step α} {front : Bytes} (hp : Fails p front fault) (f : α → Step β)
    (back : Bytes) : Fails (andThen p f) (front ++ back) fault := by
  intro rest offset hfits
  rw [List.length_append] at hfits
  obtain ⟨place, hfirst⟩ := hp (back ++ rest) offset (by omega)
  refine ⟨place, ?_⟩
  rw [List.append_assoc]
  simp only [andThen, hfirst]
  rfl

theorem Fails.map {p : Step α} {bytes : Bytes} (hp : Fails p bytes fault) (f : α → β) :
    Fails (andThen p fun x => result (f x)) bytes fault := by
  have h := hp.bind (fun x => result (f x)) []
  rwa [List.append_nil] at h

theorem Reads.bind_fails {p : Step α} {f : α → Step β} {front back : Bytes} (hp : Reads p front a)
    (hf : Fails (f a) back fault) : Fails (andThen p f) (front ++ back) fault := by
  intro rest offset hfits
  rw [List.length_append] at hfits
  have hfirst := hp (back ++ rest) offset (by omega)
  obtain ⟨place, hsecond⟩ := hf rest (offset + front.length) (by omega)
  refine ⟨place, ?_⟩
  rw [List.append_assoc, ← hsecond]
  simp only [andThen, hfirst]
  rfl

section Loops

variable {one : Step Item}

-- The first item that fails is reached, because all before it are read.
theorem fails_items {its : List Item}
    (h : ∀ it ∈ its, Reads one it.encode it ∨ Fails one it.encode fault)
    (hsome : ∃ it ∈ its, Fails one it.encode fault) :
    Fails (items one its.length) (writeItems [] its) fault := by
  induction its with
  | nil =>
    obtain ⟨it, hit, _⟩ := hsome
    cases hit
  | cons it rest ih =>
    let later (x : Item) : Step (List Item) :=
      andThen (items one rest.length) fun more => result (x :: more)
    rw [writeItems_cons]
    change Fails (andThen one later) _ fault
    rcases h it (by simp) with hread | hfail
    · obtain ⟨other, hother, hfail⟩ := hsome
      rcases List.mem_cons.mp hother with rfl | hother
      · exact hfail.bind later _
      · have hrest := ih (fun x hx => h x (List.mem_cons_of_mem it hx)) ⟨other, hother, hfail⟩
        exact hread.bind_fails (hrest.map (it :: ·))
    · exact hfail.bind later _

theorem fails_entries {es : List (Item × Item)} (hkeys : ∀ e ∈ es, Reads one e.1.encode e.1)
    (h : ∀ e ∈ es, Reads one e.2.encode e.2 ∨ Fails one e.2.encode fault)
    (hsome : ∃ e ∈ es, Fails one e.2.encode fault) :
    Fails (entries one es.length) (writeEntries [] es) fault := by
  induction es with
  | nil =>
    obtain ⟨e, he, _⟩ := hsome
    cases he
  | cons e rest ih =>
    obtain ⟨key, value⟩ := e
    let later (x y : Item) : Step (List (Item × Item)) :=
      andThen (entries one rest.length) fun more => result ((x, y) :: more)
    have hkey := hkeys (key, value) (by simp)
    rw [writeEntries_cons]
    refine hkey.bind_fails (f := fun x => andThen one (later x)) ?_
    rcases h (key, value) (by simp) with hread | hfail
    · obtain ⟨other, hother, hfail⟩ := hsome
      rcases List.mem_cons.mp hother with rfl | hother
      · exact hfail.bind (later key) _
      · have hrest := ih (fun x hx => hkeys x (List.mem_cons_of_mem _ hx))
          (fun x hx => h x (List.mem_cons_of_mem _ hx)) ⟨other, hother, hfail⟩
        exact hread.bind_fails (hrest.map ((key, value) :: ·))
    · exact hfail.bind (later key) _

end Loops

-- The head is read, and what follows it fails.
theorem fails_itemWith {loops : Nat} {inner : Option (Step Item)} {major n : Nat} {content : Bytes}
    (hmajor : major < 8) (hn : content.length < 2 ^ 64 → n < 2 ^ 64)
    (h : ∀ info digits, info < 28 → Reads (argument info) digits n →
      Fails (body loops inner major info) (digits ++ content) fault) :
    Fails (itemWith loops inner) (writeHead major n content) fault := by
  intro rest offset hfits
  have hcontent := length_writeHead_pos major n content
  obtain ⟨info, digits, hinfo, hargument, hlength, hread⟩ :=
    itemWith_writeHead loops inner hmajor (hn (by omega)) content
  rw [hread]
  exact h info digits hinfo hargument rest (offset + 1) (by omega)

section Containers

variable (loops : Nat)

theorem tooDeep_array (its : List Item) :
    Fails (itemWith loops none) (Item.encode (.array its)) .tooDeep := by
  have hlength := length_le_writeItems its
  refine fails_itemWith (by omega) (by omega) fun info digits hinfo hargument => ?_
  have hstep : body loops none 4 info =
      andThen (argument info) fun _ c => c.fail .tooDeep := by
    funext c
    simp only [body, arrayItem, show info ≠ 31 by omega, if_false]
    rfl
  rw [hstep]
  exact hargument.bind_fails fun rest offset _ => ⟨offset, rfl⟩

theorem fails_array {one : Step Item} {its : List Item}
    (h : ∀ it ∈ its, Reads one it.encode it ∨ Fails one it.encode fault)
    (hsome : ∃ it ∈ its, Fails one it.encode fault) :
    Fails (itemWith loops (some one)) (Item.encode (.array its)) fault := by
  have hlength := length_le_writeItems its
  refine fails_itemWith (by omega) (by omega) fun info digits hinfo hargument => ?_
  rw [body_array hinfo]
  exact hargument.bind_fails ((fails_items h hsome).map Item.array)

theorem fails_map {one : Step Item} {es : List (Item × Item)}
    (hkeys : ∀ e ∈ es, Reads one e.1.encode e.1)
    (h : ∀ e ∈ es, Reads one e.2.encode e.2 ∨ Fails one e.2.encode fault)
    (hsome : ∃ e ∈ es, Fails one e.2.encode fault) :
    Fails (itemWith loops (some one)) (Item.encode (.map es)) fault := by
  have hlength := length_le_writeEntries es
  refine fails_itemWith (by omega) (by omega) fun info digits hinfo hargument => ?_
  rw [body_map hinfo]
  exact hargument.bind_fails ((fails_entries hkeys h hsome).map Item.map)

end Containers

theorem parse_eq_error {bytes : Bytes} (hfits : bytes.length < 2 ^ 64)
    (h : Fails (item (bytes.length + 1) maxDepth) bytes fault) :
    ∃ place, parse bytes = .error ⟨fault, place⟩ := by
  obtain ⟨place, hall⟩ := h [] 0 (by omega)
  rw [List.append_nil] at hall
  refine ⟨place, ?_⟩
  simp only [parse, hall]
  rfl

end LightningRecords.Cbor

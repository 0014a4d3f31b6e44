import LightningRecords.Proofs.Cbor.ReadBack
import LightningRecords.Proofs.Except

namespace LightningRecords.Cbor

-- The step needs all of these bytes: where the input ends within them, it fails at
-- that end. Offsets stay within 64 bits.
def Needs {α : Type} (step : Step α) (bytes : Bytes) : Prop :=
  ∀ front back offset, front ++ back = bytes → back ≠ [] → offset + bytes.length < 2 ^ 64 →
    step ⟨front, offset⟩ = .error ⟨.endInValue, offset + front.length⟩

variable {α β : Type}

theorem needs_nil (step : Step α) : Needs step [] := by
  intro front back offset heq hback _
  exact absurd (List.append_eq_nil_iff.mp heq).2 hback

-- The input ends within what the first step reads, or else within what is left to
-- the second one.
theorem Needs.bind {p : Step α} {f : α → Step β} {front back : Bytes} {a : α}
    (hread : Reads p front a) (hp : Needs p front) (hf : Needs (f a) back) :
    Needs (andThen p f) (front ++ back) := by
  intro kept lost offset heq hlost hfits
  rw [List.length_append] at hfits
  rcases List.append_eq_append_iff.mp heq with ⟨more, rfl, hmore⟩ | ⟨rest, rfl, rfl⟩
  · by_cases hnil : more = []
    -- torn just between the two: the first step is content, the second has nothing
    · subst hnil
      rw [List.append_nil] at hread hfits
      rw [List.nil_append] at hmore
      have hfirst := hread [] offset (by omega)
      have hsecond := hf [] lost (offset + kept.length) hmore hlost (by omega)
      rw [List.append_nil] at hfirst
      simp only [andThen, hfirst]
      exact hsecond
    · have hfirst := hp kept more offset rfl hnil (by omega)
      simp only [andThen, hfirst]
      rfl
  · have hfirst := hread rest offset (by omega)
    have hsecond := hf rest lost (offset + front.length) rfl hlost (by omega)
    simp only [andThen, hfirst, List.length_append, ← Nat.add_assoc]
    exact hsecond

theorem Needs.map {p : Step α} {bytes : Bytes} {a : α} (hread : Reads p bytes a)
    (hp : Needs p bytes) (f : α → β) : Needs (andThen p fun x => result (f x)) bytes := by
  have h := Needs.bind (f := fun x => result (f x)) hread hp (needs_nil _)
  rwa [List.append_nil] at h

theorem needs_take (bytes : Bytes) : Needs (fun c => c.take bytes.length) bytes := by
  rintro front back offset rfl hback _
  have hpos := List.length_pos_iff.mpr hback
  have hshort : Bytes.split? (front ++ back).length front = none := by
    rw [Bytes.split?_eq_none_iff, List.length_append]
    omega
  simp only [Cursor.take, hshort]
  rfl

theorem needs_wide (digits : Bytes) :
    Needs (andThen (fun c => c.take digits.length) fun digits => result digits.toNat) digits :=
  (needs_take digits).map Reads.takeExactly Bytes.toNat

-- What stands behind the initial byte of a head: nothing, so many digits, or nothing
-- that could be read.
theorem argument_cases (info : Nat) :
    (argument info = result info) ∨
    (∃ count, argument info = andThen (fun c => c.take count) fun digits => result digits.toNat) ∨
    (argument info = fun c => c.fail .unassigned) := by
  by_cases hsmall : info < 24
  · left
    funext c
    simp only [argument, hsmall, if_true]
    rfl
  by_cases h24 : info = 24
  · exact .inr (.inl ⟨1, by subst h24; rfl⟩)
  by_cases h25 : info = 25
  · exact .inr (.inl ⟨2, by subst h25; rfl⟩)
  by_cases h26 : info = 26
  · exact .inr (.inl ⟨4, by subst h26; rfl⟩)
  by_cases h27 : info = 27
  · exact .inr (.inl ⟨8, by subst h27; rfl⟩)
  · right; right
    funext c
    simp only [argument, hsmall, h24, h25, h26, h27, if_false]

-- Whatever is read as the digits of a head is needed, because the initial byte says
-- how many they are.
theorem needs_argument {info n : Nat} {digits : Bytes} (h : Reads (argument info) digits n) :
    Needs (argument info) digits := by
  intro front back offset heq hback hfits
  have hread := h [] 0 (by omega)
  rw [List.append_nil] at hread
  rcases argument_cases info with hstep | ⟨count, hstep⟩ | hstep
  · rw [hstep] at hread
    cases hread
    exact needs_nil _ front back offset heq hback hfits
  · have hcount : digits.length = count := by
      -- nothing was left behind the digits, and no more than they are could be taken
      rw [hstep] at hread
      obtain ⟨⟨taken, c⟩, htake, hread⟩ := bind_eq_ok_iff.mp hread
      cases hread
      simp only [Cursor.take, Bytes.split?] at htake
      split_ifs at htake with hlength
      · simp only [Except.ok.injEq, Prod.mk.injEq, Cursor.mk.injEq, List.drop_eq_nil_iff] at htake
        rw [List.length_take] at hlength
        omega
      · cases htake
    subst hcount
    rw [hstep]
    exact needs_wide digits front back offset heq hback hfits
  · rw [hstep] at hread
    cases hread

section Loops

variable {one : Step Item}

theorem needs_items {its : List Item} (hreads : ∀ it ∈ its, Reads one it.encode it)
    (hneeds : ∀ it ∈ its, Needs one it.encode) :
    Needs (items one its.length) (writeItems [] its) := by
  induction its with
  | nil => exact needs_nil _
  | cons it rest ih =>
    have hrest : ∀ other ∈ rest, Reads one other.encode other :=
      fun other hmem => hreads other (List.mem_cons_of_mem it hmem)
    have hlater := ih hrest fun other hmem => hneeds other (List.mem_cons_of_mem it hmem)
    rw [writeItems_cons]
    exact Needs.bind (f := fun x => andThen (items one rest.length) fun more => result (x :: more))
      (hreads it (by simp)) (hneeds it (by simp)) (hlater.map (reads_items hrest) (it :: ·))

theorem needs_entries {es : List (Item × Item)}
    (hreads : ∀ e ∈ es, Reads one e.1.encode e.1 ∧ Reads one e.2.encode e.2)
    (hneeds : ∀ e ∈ es, Needs one e.1.encode ∧ Needs one e.2.encode) :
    Needs (entries one es.length) (writeEntries [] es) := by
  induction es with
  | nil => exact needs_nil _
  | cons e rest ih =>
    obtain ⟨key, value⟩ := e
    obtain ⟨hkey, hvalue⟩ := hreads (key, value) (by simp)
    obtain ⟨hkey', hvalue'⟩ := hneeds (key, value) (by simp)
    have hrest : ∀ other ∈ rest,
        Reads one other.1.encode other.1 ∧ Reads one other.2.encode other.2 :=
      fun other hmem => hreads other (List.mem_cons_of_mem _ hmem)
    have hlater := ih hrest fun other hmem => hneeds other (List.mem_cons_of_mem _ hmem)
    rw [writeEntries_cons]
    have htail := Needs.bind
      (f := fun y => andThen (entries one rest.length) fun more => result ((key, y) :: more))
      hvalue hvalue' (hlater.map (reads_entries hrest) ((key, value) :: ·))
    exact Needs.bind (f := fun x => andThen one fun y =>
      andThen (entries one rest.length) fun more => result ((x, y) :: more)) hkey hkey' htail

end Loops

-- Without its initial byte there is no item, and with it there is no more to read
-- than the content announced.
theorem needs_itemWith {loops : Nat} {inner : Option (Step Item)} {major n : Nat} {content : Bytes}
    (hmajor : major < 8) (hn : content.length < 2 ^ 64 → n < 2 ^ 64)
    (h : ∀ info digits, info < 28 → Reads (argument info) digits n →
      Needs (body loops inner major info) (digits ++ content)) :
    Needs (itemWith loops inner) (writeHead major n content) := by
  intro front back offset heq hback hfits
  have hcontent := length_writeHead_pos major n content
  obtain ⟨info, digits, hinfo, hargument, hwrite⟩ := writeHead_eq major (hn (by omega))
  rw [hwrite content] at heq hfits
  cases front with
  | nil => rfl
  | cons b front =>
    obtain ⟨rfl, hrest⟩ := List.cons_eq_cons.mp heq
    rw [List.length_cons] at hfits
    have hbody := h info digits hinfo hargument front back (offset + 1) hrest hback (by omega)
    rw [itemWith_initial loops inner hmajor (by omega), hbody, List.length_cons]
    congr 2
    omega

section Kinds

variable (loops : Nat) (inner : Option (Step Item))

theorem needs_bool (flag : Bool) : Needs (itemWith loops inner) (Item.encode (.bool flag)) := by
  intro front back offset heq hback _
  -- a single byte can only be torn before it
  have hnil : front = [] := by
    have hlength := congrArg List.length heq
    have hpos := List.length_pos_iff.mpr hback
    have hone : (Item.encode (.bool flag)).length = 1 := by cases flag <;> rfl
    rw [List.length_append, hone] at hlength
    exact List.length_eq_zero_iff.mp (by omega)
  subst hnil
  rfl

theorem needs_integer (n : Int) (hlow : -2 ^ 64 ≤ n) (hhigh : n < 2 ^ 64) :
    Needs (itemWith loops inner) (Item.encode (.integer n)) := by
  simp only [Item.encode, Item.write]
  split_ifs
  · refine needs_itemWith (by omega) (by omega) fun info digits _ h => ?_
    rw [List.append_nil]
    exact (needs_argument h).map h fun n => Item.integer (-1 - n)
  · refine needs_itemWith (by omega) (by omega) fun info digits _ h => ?_
    rw [List.append_nil]
    exact (needs_argument h).map h fun n => Item.integer n

theorem needs_bytes (b : Bytes) : Needs (itemWith loops inner) (Item.encode (.bytes b)) := by
  simp only [Item.encode, Item.write, List.append_nil]
  refine needs_itemWith (by omega) id fun info digits hinfo h => ?_
  rw [body_bytes hinfo]
  exact Needs.bind h (needs_argument h) ((needs_take b).map Reads.takeExactly Item.bytes)

-- The characters of a text are looked at when all of its bytes are there, so a text
-- that is torn within a character is no other fault.
theorem needs_text (s : String) : Needs (itemWith loops inner) (Item.encode (.text s)) := by
  simp only [Item.encode, Item.write, List.append_nil]
  refine needs_itemWith (by omega) (by simp) fun info digits hinfo h => ?_
  rw [body_text hinfo]
  refine Needs.bind h (needs_argument h) ?_
  intro front back offset heq hback hfits
  have htake := needs_take (Text.bytes s) front back offset heq hback hfits
  rw [Text.length_bytes] at hfits htake
  have hin : ¬0xFFFFFFFFFFFFFFFF < offset + s.utf8ByteSize := by omega
  simp only [hin, if_false, andThen, htake]
  rfl

variable {one : Step Item}

theorem needs_array {its : List Item} (hreads : ∀ it ∈ its, Reads one it.encode it)
    (hneeds : ∀ it ∈ its, Needs one it.encode) :
    Needs (itemWith loops (some one)) (Item.encode (.array its)) := by
  have hlength := length_le_writeItems its
  refine needs_itemWith (by omega) (by omega) fun info digits hinfo h => ?_
  rw [body_array hinfo]
  exact Needs.bind h (needs_argument h)
    ((needs_items hreads hneeds).map (reads_items hreads) Item.array)

theorem needs_map {es : List (Item × Item)}
    (hreads : ∀ e ∈ es, Reads one e.1.encode e.1 ∧ Reads one e.2.encode e.2)
    (hneeds : ∀ e ∈ es, Needs one e.1.encode ∧ Needs one e.2.encode) :
    Needs (itemWith loops (some one)) (Item.encode (.map es)) := by
  have hlength := length_le_writeEntries es
  refine needs_itemWith (by omega) (by omega) fun info digits hinfo h => ?_
  rw [body_map hinfo]
  exact Needs.bind h (needs_argument h)
    ((needs_entries hreads hneeds).map (reads_entries hreads) Item.map)

end Kinds

theorem parse_of_torn {front back : Bytes} (hback : back ≠ [])
    (hfits : (front ++ back).length < 2 ^ 64)
    (h : Needs (item (front.length + 1) maxDepth) (front ++ back)) :
    parse front = .error ⟨.endInValue, front.length⟩ := by
  have hitem := h front back 0 rfl hback (by omega)
  rw [Nat.zero_add] at hitem
  simp only [parse, hitem]
  rfl

theorem parse_of_padded {bytes more : Bytes} {it : Item} (hmore : more ≠ [])
    (hfits : bytes.length < 2 ^ 64)
    (h : Reads (item ((bytes ++ more).length + 1) maxDepth) bytes it) :
    parse (bytes ++ more) = .error ⟨.trailing, bytes.length + 1⟩ := by
  have hitem := h more 0 (by omega)
  rw [Nat.zero_add] at hitem
  simp only [parse, hitem]
  cases more with
  | nil => exact absurd rfl hmore
  | cons b more => rfl

end LightningRecords.Cbor

import LightningRecords.Record.Codec
import Mathlib.Algebra.Order.Ring.Nat

namespace LightningRecords

namespace Bytes

theorem toNat_append_singleton (bytes : Bytes) (b : UInt8) :
    toNat (bytes ++ [b]) = toNat bytes * 256 + b.toNat := by
  simp [toNat]

theorem toNat_bigEndian (width n : Nat) : toNat (bigEndian width n) = n % 256 ^ width := by
  induction width generalizing n with
  | zero => simp [bigEndian, toNat, Nat.mod_one]
  | succ width ih =>
    have hbyte : (UInt8.ofNat n).toNat = n % 256 := by simp
    have hsplit : n % 256 ^ (width + 1) = n % 256 + 256 * (n / 256 % 256 ^ width) := by
      rw [pow_succ, Nat.mul_comm, Nat.mod_mul]
    rw [bigEndian, toNat_append_singleton, ih, hbyte, hsplit]
    omega

theorem toNat_bigEndian_of_lt {width n : Nat} (h : n < 256 ^ width) :
    toNat (bigEndian width n) = n := by
  rw [toNat_bigEndian, Nat.mod_eq_of_lt h]

end Bytes

namespace Cbor

theorem Cursor.take_append (front rest : Bytes) (offset : Nat) :
    Cursor.take ⟨front ++ rest, offset⟩ front.length =
      .ok (front, ⟨rest, offset + front.length⟩) := by
  simp [Cursor.take, Bytes.split?_append]

-- The step reads exactly these bytes as this value, whatever follows them, as
-- long as they end within 64-bit offsets.
def Reads {α : Type} (step : Step α) (bytes : Bytes) (a : α) : Prop :=
  ∀ rest offset, offset + bytes.length < 2 ^ 64 →
    step ⟨bytes ++ rest, offset⟩ = .ok (a, ⟨rest, offset + bytes.length⟩)

variable {α β : Type}

-- One step after another, depending on what that has read.
def andThen (p : Step α) (f : α → Step β) : Step β := fun c => do
  let (x, c) ← p c
  f x c

def result (a : α) : Step α := fun c => .ok (a, c)

theorem reads_result (a : α) : Reads (result a) [] a := by
  intro rest offset _
  rfl

theorem Reads.bind {p : Step α} {f : α → Step β} {front back : Bytes} {a : α} {b : β}
    (hp : Reads p front a) (hf : Reads (f a) back b) :
    Reads (andThen p f) (front ++ back) b := by
  intro rest offset hfits
  rw [List.length_append] at hfits
  have hfirst := hp (back ++ rest) offset (by omega)
  have hsecond := hf rest (offset + front.length) (by omega)
  rw [List.append_assoc]
  simp only [andThen, hfirst, List.length_append, ← Nat.add_assoc, ← hsecond]
  rfl

theorem Reads.map {p : Step α} {bytes : Bytes} {a : α} (hp : Reads p bytes a) (f : α → β) :
    Reads (andThen p fun x => result (f x)) bytes (f a) := by
  have h := hp.bind (f := fun x => result (f x)) (reads_result (f a))
  rwa [List.append_nil] at h

theorem reads_wide {count n : Nat} (h : n < 256 ^ count) :
    Reads (fun c => do let (digits, c) ← c.take count; .ok (digits.toNat, c))
      (Bytes.bigEndian count n) n := by
  intro rest offset _
  have htake := Cursor.take_append (Bytes.bigEndian count n) rest offset
  rw [Bytes.length_bigEndian] at htake
  simp only [htake, Bytes.length_bigEndian]
  change Except.ok ((Bytes.bigEndian count n).toNat, _) = _
  rw [Bytes.toNat_bigEndian_of_lt h]

-- A head is an initial byte, which names the major type and one of 28 widths,
-- and the digits of the number.
theorem writeHead_eq (major : Nat) {n : Nat} (h : n < 2 ^ 64) :
    ∃ info digits, info < 28 ∧ Reads (argument info) digits n ∧
      ∀ tail, writeHead major n tail = UInt8.ofNat (major * 32 + info) :: (digits ++ tail) := by
  unfold writeHead
  by_cases h0 : n < 24
  · refine ⟨n, [], by omega, ?_, fun tail => by simp [h0]⟩
    intro rest offset _
    simp [argument, h0]
  by_cases h1 : n < 0x100
  · exact ⟨24, Bytes.bigEndian 1 n, by omega, reads_wide (by omega), fun tail => by simp [h0, h1]⟩
  by_cases h2 : n < 0x10000
  · exact ⟨25, Bytes.bigEndian 2 n, by omega, reads_wide (by omega),
      fun tail => by simp [h0, h1, h2]⟩
  by_cases h4 : n < 0x100000000
  · exact ⟨26, Bytes.bigEndian 4 n, by omega, reads_wide (by omega),
      fun tail => by simp [h0, h1, h2, h4]⟩
  · exact ⟨27, Bytes.bigEndian 8 n, by omega, reads_wide (by omega),
      fun tail => by simp [h0, h1, h2, h4]⟩

theorem writeHead_append (major n : Nat) (front tail : Bytes) :
    writeHead major n (front ++ tail) = writeHead major n front ++ tail := by
  simp only [writeHead]
  split_ifs <;> simp

theorem length_writeHead_pos (major n : Nat) (tail : Bytes) :
    tail.length < (writeHead major n tail).length := by
  simp only [writeHead]
  split_ifs <;> simp only [List.length_cons, List.length_append, Bytes.length_bigEndian] <;> omega

mutual

theorem Item.write_eq (tail : Bytes) : (it : Item) → it.write tail = it.encode ++ tail
  | .null => rfl
  | .bool false => rfl
  | .bool true => rfl
  | .integer n => by
    simp only [Item.encode, Item.write]
    split_ifs <;> exact writeHead_append _ _ [] tail
  | .float bits => by simp [Item.encode, Item.write]
  | .bytes b => by simp [Item.encode, Item.write, ← writeHead_append]
  | .text s => by simp [Item.encode, Item.write, ← writeHead_append]
  | .array its => by
    simp only [Item.encode, Item.write]
    rw [writeItems_eq tail its, writeHead_append]
  | .map es => by
    simp only [Item.encode, Item.write]
    rw [writeEntries_eq tail es, writeHead_append]

theorem writeItems_eq (tail : Bytes) :
    (its : List Item) → writeItems tail its = writeItems [] its ++ tail
  | [] => rfl
  | it :: rest => by
    simp only [writeItems]
    rw [Item.write_eq _ it, Item.write_eq (writeItems [] rest) it, writeItems_eq tail rest,
      List.append_assoc]

theorem writeEntries_eq (tail : Bytes) :
    (es : List (Item × Item)) → writeEntries tail es = writeEntries [] es ++ tail
  | [] => rfl
  | (key, value) :: rest => by
    simp only [writeEntries]
    rw [Item.write_eq _ key, Item.write_eq _ value, Item.write_eq (value.write _) key,
      Item.write_eq (writeEntries [] rest) value, writeEntries_eq tail rest]
    simp only [List.append_assoc]

end

theorem writeItems_cons (it : Item) (rest : List Item) :
    writeItems [] (it :: rest) = it.encode ++ writeItems [] rest :=
  Item.write_eq _ it

theorem writeEntries_cons (key value : Item) (rest : List (Item × Item)) :
    writeEntries [] ((key, value) :: rest) =
      key.encode ++ (value.encode ++ writeEntries [] rest) := by
  simp only [writeEntries]
  rw [Item.write_eq _ key, Item.write_eq _ value]

theorem length_encode_pos (it : Item) : 0 < it.encode.length := by
  cases it with
  | bool flag => cases flag <;> simp [Item.encode, Item.write]
  | null => simp [Item.encode, Item.write]
  | float bits => simp [Item.encode, Item.write]
  | integer n =>
    simp only [Item.encode, Item.write]
    split_ifs
    · exact length_writeHead_pos _ _ []
    · exact length_writeHead_pos _ _ []
  | bytes b => exact Nat.zero_lt_of_lt (length_writeHead_pos 2 b.length _)
  | text s => exact Nat.zero_lt_of_lt (length_writeHead_pos 3 s.utf8ByteSize _)
  | array its => exact Nat.zero_lt_of_lt (length_writeHead_pos 4 its.length _)
  | map es => exact Nat.zero_lt_of_lt (length_writeHead_pos 5 es.length _)

theorem length_le_writeItems (its : List Item) : its.length ≤ (writeItems [] its).length := by
  induction its with
  | nil => simp
  | cons it rest ih =>
    have hone := length_encode_pos it
    simp only [writeItems_cons, List.length_append, List.length_cons]
    omega

theorem length_le_writeEntries (es : List (Item × Item)) :
    es.length ≤ (writeEntries [] es).length := by
  induction es with
  | nil => simp
  | cons e rest ih =>
    obtain ⟨key, value⟩ := e
    have hkey := length_encode_pos key
    simp only [writeEntries_cons, List.length_append, List.length_cons]
    omega

theorem reads_items {one : Step Item} {its : List Item}
    (h : ∀ it ∈ its, Reads one it.encode it) :
    Reads (items one its.length) (writeItems [] its) its := by
  induction its with
  | nil => exact reads_result []
  | cons it rest ih =>
    have hrest := ih fun other hmem => h other (List.mem_cons_of_mem it hmem)
    rw [writeItems_cons]
    exact (h it (by simp)).bind
      (f := fun x => andThen (items one rest.length) fun more => result (x :: more))
      (hrest.map (it :: ·))

theorem reads_entries {one : Step Item} {es : List (Item × Item)}
    (h : ∀ e ∈ es, Reads one e.1.encode e.1 ∧ Reads one e.2.encode e.2) :
    Reads (entries one es.length) (writeEntries [] es) es := by
  induction es with
  | nil => exact reads_result []
  | cons e rest ih =>
    obtain ⟨key, value⟩ := e
    obtain ⟨hkey, hvalue⟩ := h (key, value) (by simp)
    have hrest := ih fun other hmem => h other (List.mem_cons_of_mem _ hmem)
    rw [writeEntries_cons]
    have htail := hvalue.bind
      (f := fun y => andThen (entries one rest.length) fun more => result ((key, y) :: more))
      (hrest.map ((key, value) :: ·))
    exact hkey.bind (f := fun x => andThen one fun y =>
      andThen (entries one rest.length) fun more => result ((x, y) :: more)) htail

-- What follows the initial byte of an item.
def body (loops : Nat) (inner : Option (Step Item)) (major info : Nat) : Step Item := fun c =>
  match major with
  | 0 => do
    let (n, c) ← argument info c
    .ok (.integer n, c)
  | 1 => do
    let (n, c) ← argument info c
    .ok (.integer (-1 - n), c)
  | 2 => byteString loops info c
  | 3 => textString loops info c
  | 4 => arrayItem loops inner info c
  | 5 => mapItem loops inner info c
  | 6 => taggedItem inner info c
  | _ => simpleItem info c

theorem itemWith_cons (loops : Nat) (inner : Option (Step Item)) (b : UInt8) (rest : Bytes)
    (offset : Nat) :
    itemWith loops inner ⟨b :: rest, offset⟩ =
      body loops inner (b.toNat / 32) (b.toNat % 32) ⟨rest, offset + 1⟩ := rfl

-- The initial byte of a head calls for what its major type is read by.
theorem itemWith_initial (loops : Nat) (inner : Option (Step Item)) {major info : Nat}
    (hmajor : major < 8) (hinfo : info < 32) (rest : Bytes) (offset : Nat) :
    itemWith loops inner ⟨UInt8.ofNat (major * 32 + info) :: rest, offset⟩ =
      body loops inner major info ⟨rest, offset + 1⟩ := by
  have hbyte : (UInt8.ofNat (major * 32 + info)).toNat = major * 32 + info := by
    simp only [UInt8.toNat_ofNat']
    omega
  have hhigh : (major * 32 + info) / 32 = major := by omega
  have hlow : (major * 32 + info) % 32 = info := by omega
  rw [itemWith_cons, hbyte, hhigh, hlow]

-- What a head with its content is read by: what the initial byte calls for.
theorem itemWith_writeHead (loops : Nat) (inner : Option (Step Item)) {major n : Nat}
    (hmajor : major < 8) (hn : n < 2 ^ 64) (content : Bytes) :
    ∃ info digits, info < 28 ∧ Reads (argument info) digits n ∧
      (writeHead major n content).length = (digits ++ content).length + 1 ∧
      ∀ rest offset, itemWith loops inner ⟨writeHead major n content ++ rest, offset⟩ =
        body loops inner major info ⟨digits ++ content ++ rest, offset + 1⟩ := by
  obtain ⟨info, digits, hinfo, hargument, heq⟩ := writeHead_eq major hn
  refine ⟨info, digits, hinfo, hargument, by rw [heq content, List.length_cons], ?_⟩
  intro rest offset
  rw [heq content, List.cons_append, itemWith_initial loops inner hmajor (by omega)]

-- The number of a head is small enough to be written whenever what follows the
-- head fits into memory.
theorem reads_itemWith {loops : Nat} {inner : Option (Step Item)} {major n : Nat} {content : Bytes}
    {it : Item} (hmajor : major < 8) (hn : content.length < 2 ^ 64 → n < 2 ^ 64)
    (h : ∀ info digits, info < 28 → Reads (argument info) digits n →
      Reads (body loops inner major info) (digits ++ content) it) :
    Reads (itemWith loops inner) (writeHead major n content) it := by
  intro rest offset hfits
  have hcontent := length_writeHead_pos major n content
  obtain ⟨info, digits, hinfo, hargument, hlength, hread⟩ :=
    itemWith_writeHead loops inner hmajor (hn (by omega)) content
  have hbody := h info digits hinfo hargument rest (offset + 1) (by omega)
  rw [hread, hbody, hlength]
  congr 3
  omega

theorem Reads.takeExactly {content : Bytes} :
    Reads (fun c => c.take content.length) content content := by
  intro rest offset _
  exact Cursor.take_append content rest offset

section Bodies

variable {loops : Nat} {inner : Option (Step Item)} {info n : Nat} {digits : Bytes}

theorem reads_natural (h : Reads (argument info) digits n) :
    Reads (body loops inner 0 info) (digits ++ []) (.integer n) := by
  rw [List.append_nil]
  exact h.map fun n => Item.integer n

theorem reads_negative (h : Reads (argument info) digits n) :
    Reads (body loops inner 1 info) (digits ++ []) (.integer (-1 - n)) := by
  rw [List.append_nil]
  exact h.map fun n => Item.integer (-1 - n)

theorem body_bytes (hinfo : info < 28) :
    body loops inner 2 info = andThen (argument info) fun count =>
      andThen (fun c => c.take count) fun content => result (.bytes content) := by
  funext c
  simp only [body, byteString, show info ≠ 31 by omega, if_false]
  rfl

theorem body_text (hinfo : info < 28) :
    body loops inner 3 info = andThen (argument info) fun count c =>
      if 0xFFFFFFFFFFFFFFFF < c.offset + count then c.fail .lengthOutOfRange
      else andThen (fun c => c.take count) textItem c := by
  funext c
  simp only [body, textString, show info ≠ 31 by omega, if_false]
  rfl

theorem reads_byteString {content : Bytes} (hinfo : info < 28)
    (h : Reads (argument info) digits content.length) :
    Reads (body loops inner 2 info) (digits ++ content) (.bytes content) := by
  rw [body_bytes hinfo]
  exact h.bind (Reads.takeExactly.map Item.bytes)

theorem reads_textString {s : String} (hinfo : info < 28)
    (h : Reads (argument info) digits s.utf8ByteSize) :
    Reads (body loops inner 3 info) (digits ++ Text.bytes s) (.text s) := by
  rw [body_text hinfo]
  apply h.bind
  intro rest offset hfits
  have htake := Cursor.take_append (Text.bytes s) rest offset
  rw [Text.length_bytes] at hfits htake
  have hin : ¬0xFFFFFFFFFFFFFFFF < offset + s.utf8ByteSize := by omega
  simp only [hin, if_false, andThen, htake, Text.length_bytes]
  change textItem (Text.bytes s) _ = _
  simp [textItem]

theorem body_array {one : Step Item} (hinfo : info < 28) :
    body loops (some one) 4 info = andThen (argument info) fun count =>
      andThen (items one count) fun content => result (.array content) := by
  funext c
  simp only [body, arrayItem, show info ≠ 31 by omega, if_false]
  rfl

theorem body_map {one : Step Item} (hinfo : info < 28) :
    body loops (some one) 5 info = andThen (argument info) fun count =>
      andThen (entries one count) fun content => result (.map content) := by
  funext c
  simp only [body, mapItem, show info ≠ 31 by omega, if_false]
  rfl

theorem reads_arrayItem {one : Step Item} {its : List Item} (hinfo : info < 28)
    (h : Reads (argument info) digits its.length) (hits : ∀ it ∈ its, Reads one it.encode it) :
    Reads (body loops (some one) 4 info) (digits ++ writeItems [] its) (.array its) := by
  rw [body_array hinfo]
  exact h.bind ((reads_items hits).map Item.array)

theorem reads_mapItem {one : Step Item} {es : List (Item × Item)} (hinfo : info < 28)
    (h : Reads (argument info) digits es.length)
    (hes : ∀ e ∈ es, Reads one e.1.encode e.1 ∧ Reads one e.2.encode e.2) :
    Reads (body loops (some one) 5 info) (digits ++ writeEntries [] es) (.map es) := by
  rw [body_map hinfo]
  exact h.bind ((reads_entries hes).map Item.map)

end Bodies

theorem reads_integer (loops : Nat) (inner : Option (Step Item)) {n : Int}
    (hlow : -2 ^ 64 ≤ n) (hhigh : n < 2 ^ 64) :
    Reads (itemWith loops inner) (Item.encode (.integer n)) (.integer n) := by
  simp only [Item.encode, Item.write]
  split_ifs with hsign
  · have hit : (.integer n : Item) = .integer (-1 - ((-1 - n).toNat : Int)) := by
      congr 1
      omega
    rw [hit]
    exact reads_itemWith (by omega) (by omega) fun _ _ _ h => reads_negative h
  · have hit : (.integer n : Item) = .integer (n.toNat : Int) := by
      congr 1
      omega
    rw [hit]
    exact reads_itemWith (by omega) (by omega) fun _ _ _ h => reads_natural h

theorem reads_bool (loops : Nat) (inner : Option (Step Item)) (flag : Bool) :
    Reads (itemWith loops inner) (Item.encode (.bool flag)) (.bool flag) := by
  intro rest offset _
  cases flag <;> rfl

theorem reads_bytes (loops : Nat) (inner : Option (Step Item)) (b : Bytes) :
    Reads (itemWith loops inner) (Item.encode (.bytes b)) (.bytes b) := by
  simp only [Item.encode, Item.write, List.append_nil]
  exact reads_itemWith (by omega) id fun _ _ hinfo h => reads_byteString hinfo h

theorem reads_text (loops : Nat) (inner : Option (Step Item)) (s : String) :
    Reads (itemWith loops inner) (Item.encode (.text s)) (.text s) := by
  simp only [Item.encode, Item.write, List.append_nil]
  exact reads_itemWith (by omega) (by simp) fun _ _ hinfo h => reads_textString hinfo h

theorem reads_array (loops : Nat) {one : Step Item} {its : List Item}
    (h : ∀ it ∈ its, Reads one it.encode it) :
    Reads (itemWith loops (some one)) (Item.encode (.array its)) (.array its) := by
  have hlength := length_le_writeItems its
  exact reads_itemWith (by omega) (by omega) fun _ _ hinfo hn => reads_arrayItem hinfo hn h

theorem reads_map (loops : Nat) {one : Step Item} {es : List (Item × Item)}
    (h : ∀ e ∈ es, Reads one e.1.encode e.1 ∧ Reads one e.2.encode e.2) :
    Reads (itemWith loops (some one)) (Item.encode (.map es)) (.map es) := by
  have hlength := length_le_writeEntries es
  exact reads_itemWith (by omega) (by omega) fun _ _ hinfo hn => reads_mapItem hinfo hn h

-- What levels of nesting are left for the items of an item.
def innerStep (loops : Nat) : Nat → Option (Step Item)
  | 0 => none
  | room + 1 => some (item loops room)

theorem item_eq (loops room : Nat) : item loops room = itemWith loops (innerStep loops room) := by
  cases room <;> rfl

theorem parse_eq_ok {bytes : Bytes} {it : Item} (hfits : bytes.length < 2 ^ 64)
    (h : Reads (item (bytes.length + 1) maxDepth) bytes it) : parse bytes = .ok it := by
  have hall := h [] 0 (by omega)
  rw [List.append_nil] at hall
  simp only [parse, hall]
  rfl

end Cbor

end LightningRecords

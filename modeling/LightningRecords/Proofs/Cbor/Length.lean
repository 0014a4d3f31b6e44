import LightningRecords.Proofs.Cbor.Grammar
import Mathlib.Data.List.Induction

namespace LightningRecords

theorem Bytes.toNat_lt (bytes : Bytes) : bytes.toNat < 256 ^ bytes.length := by
  induction bytes using List.reverseRecOn with
  | nil => simp [toNat]
  | append_singleton front b ih =>
    have hb := b.toNat_lt
    rw [toNat_append_singleton, List.length_append, List.length_singleton, pow_succ]
    omega

namespace Cbor

-- How many bytes a head with its number takes.
def headLength (n : Nat) : Nat :=
  if n < 24 then 1 else if n < 0x100 then 2 else if n < 0x10000 then 3
  else if n < 0x100000000 then 5 else 9

theorem length_writeHead (major n : Nat) (tail : Bytes) :
    (writeHead major n tail).length = headLength n + tail.length := by
  simp only [writeHead, headLength]
  split_ifs <;> simp only [List.length_cons, List.length_append, Bytes.length_bigEndian] <;> omega

theorem headLength_pos (n : Nat) : 0 < headLength n := by
  simp only [headLength]
  split_ifs <;> omega

theorem headLength_le (n : Nat) : headLength n ≤ n + 1 := by
  simp only [headLength]
  split_ifs <;> omega

theorem headLength_mono {m n : Nat} (h : m ≤ n) : headLength m ≤ headLength n := by
  simp only [headLength]
  split_ifs <;> omega

theorem length_encode_array (its : List Item) :
    (Item.encode (.array its)).length = headLength its.length + (writeItems [] its).length :=
  length_writeHead _ _ _

theorem length_encode_map (es : List (Item × Item)) :
    (Item.encode (.map es)).length = headLength es.length + (writeEntries [] es).length :=
  length_writeHead _ _ _

theorem length_writeItems_cons (it : Item) (its : List Item) :
    (writeItems [] (it :: its)).length = it.encode.length + (writeItems [] its).length := by
  rw [writeItems_cons, List.length_append]

theorem writeItems_flatten (es : List (Item × Item)) :
    writeItems [] (flatten es) = writeEntries [] es := by
  induction es with
  | nil => rfl
  | cons e rest ih =>
    obtain ⟨key, value⟩ := e
    have hcons : flatten ((key, value) :: rest) = key :: value :: flatten rest := rfl
    rw [hcons, writeItems_cons, writeItems_cons, writeEntries_cons, ih]

theorem length_flatten (es : List (Item × Item)) : (flatten es).length = 2 * es.length := by
  induction es with
  | nil => rfl
  | cons e rest ih =>
    have hcons : flatten (e :: rest) = e.1 :: e.2 :: flatten rest := rfl
    simp only [hcons, List.length_cons, ih]
    omega

section Shortest

variable {major n info : Nat} {input content rest : Bytes} {it : Item}

-- No number is written in more digits than it was read from.
theorem Argument.headLength_le (h : Argument info input n rest) :
    headLength n + rest.length ≤ input.length + 1 := by
  cases h with
  | within h => simp only [headLength, h, if_true]; omega
  | @behind digits _ h =>
    have hlt := digits.toNat_lt
    rw [List.length_append]
    simp only [List.mem_cons, Prod.mk.injEq, List.not_mem_nil, or_false] at h
    rcases h with ⟨-, h⟩ | ⟨-, h⟩ | ⟨-, h⟩ | ⟨-, h⟩
    all_goals
      rw [h] at hlt ⊢
      simp only [headLength]
      split_ifs <;> omega

theorem Head.headLength_le (h : Head major input n rest) :
    headLength n + rest.length ≤ input.length := by
  cases h with
  | intro _ h =>
    have hargument := h.headLength_le
    rw [List.length_cons]
    omega

theorem Parts.length_lt (h : Parts major input content rest) :
    content.length + rest.length < input.length := by
  induction h with
  | stop => simp
  | part hhead _ ih =>
    have hhead := hhead.headLength_le
    rw [List.length_append] at hhead ⊢
    omega

theorem Content.length_lt (h : Content major input content rest) :
    content.length + rest.length < input.length := by
  cases h with
  | stated h =>
    have hhead := h.headLength_le
    have hpos := headLength_pos content.length
    rw [List.length_append] at hhead
    omega
  | inParts _ _ h =>
    have hparts := h.length_lt
    rw [List.length_cons]
    omega

theorem Simple.length_encode (h : Simple info input it rest) :
    it.encode.length + rest.length = input.length + 1 := by
  cases h with
  | float h =>
    simp only [Item.encode, Item.write, List.length_cons, List.length_append, List.length_nil]
    omega
  | _ => simp only [Item.encode, Item.write, List.length_cons, List.length_nil]; omega

theorem Leaf.length_encode_lt (h : Leaf input it rest) :
    it.encode.length + 2 * rest.length < 2 * input.length := by
  cases h with
  | @natural _ _ n h =>
    have hhead := h.headLength_le
    have hpos := headLength_pos n
    have hsign : ¬(n : Int) < 0 := by omega
    simp only [Item.encode, Item.write, hsign, if_false, length_writeHead, Int.toNat_natCast,
      List.length_nil]
    omega
  | @negative _ _ n h =>
    have hhead := h.headLength_le
    have hpos := headLength_pos n
    have hsign : (-1 - n : Int) < 0 := by omega
    have hback : (-1 - (-1 - n : Int)).toNat = n := by omega
    simp only [Item.encode, Item.write, hsign, if_true, length_writeHead, hback, List.length_nil]
    omega
  | @bytes _ b _ h =>
    have hcontent := h.length_lt
    have hhead := Cbor.headLength_le b.length
    simp only [Item.encode, Item.write, length_writeHead, List.append_nil]
    omega
  | @text _ _ s h =>
    have hcontent := h.length_lt
    have hhead := Cbor.headLength_le s.utf8ByteSize
    rw [Text.length_bytes] at hcontent
    simp only [Item.encode, Item.write, length_writeHead, List.append_nil, Text.length_bytes]
    omega
  | simple _ h =>
    have hsimple := h.length_encode
    have hpos := length_encode_pos it
    rw [List.length_cons]
    omega

-- An end mark takes a byte, which is more than what a stated count may take
-- beyond one byte for each member.
theorem Opening.headLength_le {count : Nat} {next closing : Bytes}
    (h : Opening major input count next closing) :
    headLength count + 2 * next.length < 2 * input.length + count + 2 * closing.length := by
  cases h with
  | stated h =>
    have hhead := h.headLength_le
    have hpos := headLength_pos count
    omega
  | toBreak _ _ =>
    have hhead := Cbor.headLength_le count
    simp only [List.length_cons, List.length_nil]
    omega

-- Written in the shortest way, items take less than twice the bytes that they
-- were read from.
theorem Spells.length_le {room : Nat} {its : List Item} (h : Spells room input its rest) :
    (writeItems [] its).length + its.length + 2 * rest.length ≤ 2 * input.length := by
  induction h with
  | nil => simp [writeItems]
  | leaf h _ ih =>
    have hleaf := h.length_encode_lt
    rw [length_writeItems_cons, List.length_cons]
    omega
  | array hopening _ _ ihcontent ihrest =>
    have hhead := hopening.headLength_le
    rw [List.length_append] at ihcontent
    rw [length_writeItems_cons, length_encode_array, List.length_cons]
    omega
  | map hopening _ _ ihcontent ihrest =>
    have hhead := hopening.headLength_le
    rw [writeItems_flatten, length_flatten, List.length_append] at ihcontent
    rw [length_writeItems_cons, length_encode_map, List.length_cons]
    omega
  | tagged hhead _ _ ihcontent ihrest =>
    have hhead := hhead.headLength_le
    rw [length_writeItems_cons] at ihcontent
    simp only [List.length_cons, List.length_nil] at ihcontent
    rw [length_writeItems_cons, List.length_cons]
    omega

end Shortest

theorem length_encode_lt_of_parse {bytes : Bytes} (h : parse bytes = .ok it) :
    it.encode.length < 2 * bytes.length := by
  have hspells := (spells_of_parse h).length_le
  rw [length_writeItems_cons] at hspells
  simp only [List.length_cons, List.length_nil] at hspells
  omega

end Cbor

end LightningRecords

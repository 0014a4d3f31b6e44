import LightningRecords.Proofs.Cbor.ReadBack
import LightningRecords.Proofs.Except

namespace LightningRecords.Cbor

-- In all of these, the first bytes are what is read from and the last ones what is
-- left over.

-- A number in the low five bits of an initial byte, or in the digits behind it.
inductive Argument : Nat → Bytes → Nat → Bytes → Prop where
  | within {n : Nat} {rest : Bytes} (h : n < 24) : Argument n rest n rest
  | behind {info : Nat} {digits rest : Bytes}
      (h : (info, digits.length) ∈ [(24, 1), (25, 2), (26, 4), (27, 8)]) :
      Argument info (digits ++ rest) digits.toNat rest

-- An initial byte of a major type with its number.
inductive Head (major : Nat) : Bytes → Nat → Bytes → Prop where
  | intro {b : UInt8} {input rest : Bytes} {n : Nat} (hmajor : b.toNat / 32 = major)
      (h : Argument (b.toNat % 32) input n rest) : Head major (b :: input) n rest

-- Parts of a string up to the break.
inductive Parts (major : Nat) : Bytes → Bytes → Bytes → Prop where
  | stop {rest : Bytes} : Parts major (0xFF :: rest) [] rest
  | part {input chunk next content rest : Bytes}
      (hhead : Head major input chunk.length (chunk ++ next))
      (h : Parts major next content rest) : Parts major input (chunk ++ content) rest

-- A string whose length is stated, or in parts.
inductive Content (major : Nat) : Bytes → Bytes → Bytes → Prop where
  | stated {input content rest : Bytes} (h : Head major input content.length (content ++ rest)) :
      Content major input content rest
  | inParts {b : UInt8} {input content rest : Bytes} (hmajor : b.toNat / 32 = major)
      (hinfo : b.toNat % 32 = 31) (h : Parts major input content rest) :
      Content major (b :: input) content rest

-- What the low five bits of an initial byte of the last major type stand for.
inductive Simple : Nat → Bytes → Item → Bytes → Prop where
  | no {rest : Bytes} : Simple 20 rest (.bool false) rest
  | yes {rest : Bytes} : Simple 21 rest (.bool true) rest
  | null {info : Nat} {rest : Bytes} (h : info = 22 ∨ info = 23) : Simple info rest .null rest
  | float {info : Nat} {bits rest : Bytes}
      (h : (info, bits.length) ∈ [(25, 2), (26, 4), (27, 8)]) :
      Simple info (bits ++ rest) (.float bits) rest

-- Items that have no items of their own.
inductive Leaf : Bytes → Item → Bytes → Prop where
  | natural {input rest : Bytes} {n : Nat} (h : Head 0 input n rest) :
      Leaf input (.integer n) rest
  | negative {input rest : Bytes} {n : Nat} (h : Head 1 input n rest) :
      Leaf input (.integer (-1 - n)) rest
  | bytes {input b rest : Bytes} (h : Content 2 input b rest) : Leaf input (.bytes b) rest
  | text {input rest : Bytes} {s : String} (h : Content 3 input (Text.bytes s) rest) :
      Leaf input (.text s) rest
  | simple {b : UInt8} {input rest : Bytes} {it : Item} (hmajor : b.toNat / 32 = 7)
      (h : Simple (b.toNat % 32) input it rest) : Leaf (b :: input) it rest

-- The beginning of an array or map of so many members, and what stands at its end.
inductive Opening (major : Nat) : Bytes → Nat → Bytes → Bytes → Prop where
  | stated {input next : Bytes} {count : Nat} (h : Head major input count next) :
      Opening major input count next []
  | toBreak {b : UInt8} {next : Bytes} {count : Nat} (hmajor : b.toNat / 32 = major)
      (hinfo : b.toNat % 32 = 31) : Opening major (b :: next) count next [0xFF]

-- The items of a map's entries, one behind the other.
def flatten (es : List (Item × Item)) : List Item := es.flatMap fun e => [e.1, e.2]

-- Items one behind the other, with so many levels of arrays, maps and tags.
inductive Spells : Nat → Bytes → List Item → Bytes → Prop where
  | nil {room : Nat} {rest : Bytes} : Spells room rest [] rest
  | leaf {room : Nat} {input next rest : Bytes} {it : Item} {its : List Item}
      (h : Leaf input it next) (hits : Spells room next its rest) :
      Spells room input (it :: its) rest
  | array {room : Nat} {input next after closing rest : Bytes} {content its : List Item}
      (hopening : Opening 4 input content.length next closing)
      (hcontent : Spells room next content (closing ++ after))
      (hits : Spells (room + 1) after its rest) :
      Spells (room + 1) input (.array content :: its) rest
  | map {room : Nat} {input next after closing rest : Bytes} {es : List (Item × Item)}
      {its : List Item} (hopening : Opening 5 input es.length next closing)
      (hcontent : Spells room next (flatten es) (closing ++ after))
      (hits : Spells (room + 1) after its rest) :
      Spells (room + 1) input (.map es :: its) rest
  | tagged {room n : Nat} {input next after rest : Bytes} {it : Item} {its : List Item}
      (hhead : Head 6 input n next) (hcontent : Spells room next [it] after)
      (hits : Spells (room + 1) after its rest) : Spells (room + 1) input (it :: its) rest

theorem Spells.append {room : Nat} {input next rest : Bytes} {its more : List Item}
    (h : Spells room input its next) (hmore : Spells room next more rest) :
    Spells room input (its ++ more) rest := by
  induction h with
  | nil => exact hmore
  | leaf h _ ih => exact .leaf h (ih hmore)
  | array hopening hcontent _ _ ih => exact .array hopening hcontent (ih hmore)
  | map hopening hcontent _ _ ih => exact .map hopening hcontent (ih hmore)
  | tagged hhead hcontent _ _ ih => exact .tagged hhead hcontent (ih hmore)

section Leaves

variable {info count loops major : Nat} {c c' : Cursor} {b : UInt8} {input : Bytes} {it : Item}

theorem take_eq_ok {bytes : Bytes} (h : c.take count = .ok (bytes, c')) :
    c.rest = bytes ++ c'.rest ∧ bytes.length = count := by
  simp only [Cursor.take, Bytes.split?] at h
  split at h
  · rename_i front rest hsplit
    split at hsplit
    · rename_i hlength
      cases hsplit
      cases h
      exact ⟨(List.take_append_drop count c.rest).symm, hlength⟩
    · cases hsplit
  · cases h

theorem argument_of_wide {n width : Nat}
    (hwidth : (info, width) ∈ [(24, 1), (25, 2), (26, 4), (27, 8)])
    (h : (do let (digits, c) ← c.take width; .ok (digits.toNat, c)) = .ok (n, c')) :
    Argument info c.rest n c'.rest := by
  obtain ⟨⟨digits, next⟩, htake, hdone⟩ := bind_eq_ok_iff.mp h
  obtain ⟨hrest, hlength⟩ := take_eq_ok htake
  cases hdone
  rw [hrest]
  exact .behind (hlength ▸ hwidth)

theorem argument_eq_ok {n : Nat} (h : argument info c = .ok (n, c')) :
    Argument info c.rest n c'.rest := by
  simp only [argument] at h
  split_ifs at h with h0 h1 h2 h4 h8
  · cases h
    exact .within h0
  · exact argument_of_wide (by simp [h1]) h
  · exact argument_of_wide (by simp [h2]) h
  · exact argument_of_wide (by simp [h4]) h
  · exact argument_of_wide (by simp [h8]) h
  · cases h

theorem chunks_eq_ok {content : Bytes} (h : chunks major loops c = .ok (content, c')) :
    Parts major c.rest content c'.rest := by
  induction loops generalizing c content with
  | zero => cases h
  | succ loops ih =>
    obtain ⟨⟨b, next⟩, hbyte, h⟩ := bind_eq_ok_iff.mp h
    obtain ⟨rest, offset⟩ := c
    cases rest with
    | nil => cases hbyte
    | cons first rest =>
      cases hbyte
      dsimp only at h
      split_ifs at h with hstop hchunk
      · cases h
        rw [hstop]
        exact .stop
      · obtain ⟨⟨count, afterHead⟩, hhead, h⟩ := bind_eq_ok_iff.mp h
        obtain ⟨⟨chunk, afterChunk⟩, htake, h⟩ := bind_eq_ok_iff.mp h
        obtain ⟨⟨more, last⟩, hmore, h⟩ := bind_eq_ok_iff.mp h
        cases h
        obtain ⟨hrest, rfl⟩ := take_eq_ok htake
        have hargument := argument_eq_ok hhead
        dsimp only at hrest
        rw [hrest] at hargument
        exact .part (.intro hchunk.1 hargument) (ih hmore)
      · cases h

theorem stated_of_take {n : Nat} {next : Cursor} {content : Bytes} (hmajor : b.toNat / 32 = major)
    (hargument : argument (b.toNat % 32) c = .ok (n, next))
    (htake : next.take n = .ok (content, c')) :
    Content major (b :: c.rest) content c'.rest := by
  obtain ⟨hrest, rfl⟩ := take_eq_ok htake
  have h := argument_eq_ok hargument
  rw [hrest] at h
  exact .stated (.intro hmajor h)

theorem byteString_eq_ok (hmajor : b.toNat / 32 = 2)
    (h : byteString loops (b.toNat % 32) c = .ok (it, c')) : Leaf (b :: c.rest) it c'.rest := by
  simp only [byteString] at h
  split at h
  · rename_i hinfo
    obtain ⟨⟨content, next⟩, hchunks, h⟩ := bind_eq_ok_iff.mp h
    cases h
    exact .bytes (.inParts hmajor hinfo (chunks_eq_ok hchunks))
  · obtain ⟨⟨n, next⟩, hargument, h⟩ := bind_eq_ok_iff.mp h
    obtain ⟨⟨content, last⟩, htake, h⟩ := bind_eq_ok_iff.mp h
    cases h
    exact .bytes (stated_of_take hmajor hargument htake)

theorem textItem_eq_ok {content : Bytes} (h : textItem content c = .ok (it, c')) :
    ∃ s, it = .text s ∧ content = Text.bytes s ∧ c' = c := by
  simp only [textItem] at h
  split at h
  · rename_i s hs
    cases h
    exact ⟨s, rfl, Text.eq_bytes_of_ofBytes? hs, rfl⟩
  · cases h

theorem textString_eq_ok (hmajor : b.toNat / 32 = 3)
    (h : textString loops (b.toNat % 32) c = .ok (it, c')) : Leaf (b :: c.rest) it c'.rest := by
  simp only [textString] at h
  split at h
  · rename_i hinfo
    obtain ⟨⟨content, next⟩, hchunks, h⟩ := bind_eq_ok_iff.mp h
    obtain ⟨s, rfl, rfl, rfl⟩ := textItem_eq_ok h
    exact .text (.inParts hmajor hinfo (chunks_eq_ok hchunks))
  · obtain ⟨⟨n, next⟩, hargument, h⟩ := bind_eq_ok_iff.mp h
    dsimp only at h
    split at h
    · cases h
    · obtain ⟨⟨content, last⟩, htake, h⟩ := bind_eq_ok_iff.mp h
      obtain ⟨s, rfl, rfl, rfl⟩ := textItem_eq_ok h
      exact .text (stated_of_take hmajor hargument htake)

theorem floatItem_eq_ok {width : Nat} (hwidth : (info, width) ∈ [(25, 2), (26, 4), (27, 8)])
    (h : floatItem width c = .ok (it, c')) : Simple info c.rest it c'.rest := by
  obtain ⟨⟨bits, next⟩, htake, h⟩ := bind_eq_ok_iff.mp h
  obtain ⟨hrest, hlength⟩ := take_eq_ok htake
  cases h
  rw [hrest]
  exact .float (hlength ▸ hwidth)

theorem simpleItem_eq_ok (h : simpleItem info c = .ok (it, c')) :
    Simple info c.rest it c'.rest := by
  simp only [simpleItem] at h
  split_ifs at h with hno hyes hnull hundefined h2 h4 h8
  · cases h
    exact hno ▸ .no
  · cases h
    exact hyes ▸ .yes
  · cases h
    exact .null (.inl hnull)
  · cases h
    exact .null (.inr hundefined)
  · exact floatItem_eq_ok (by simp [h2]) h
  · exact floatItem_eq_ok (by simp [h4]) h
  · exact floatItem_eq_ok (by simp [h8]) h
  · cases h
  · cases h

end Leaves

section Containers

variable {room loops info : Nat} {one : Step Item} {inner : Option (Step Item)} {c c' : Cursor}
  {b : UInt8} {it : Item}

-- The step reads one item as it is spelled.
def Sound (one : Step Item) (room : Nat) : Prop :=
  ∀ c it c', one c = .ok (it, c') → Spells room c.rest [it] c'.rest

theorem items_eq_ok (hone : Sound one room) {count : Nat} {its : List Item}
    (h : items one count c = .ok (its, c')) :
    its.length = count ∧ Spells room c.rest its c'.rest := by
  induction count generalizing c its with
  | zero =>
    cases h
    exact ⟨rfl, .nil⟩
  | succ count ih =>
    obtain ⟨⟨it, next⟩, hit, h⟩ := bind_eq_ok_iff.mp h
    obtain ⟨⟨more, last⟩, hmore, h⟩ := bind_eq_ok_iff.mp h
    cases h
    obtain ⟨hlength, hspells⟩ := ih hmore
    exact ⟨congrArg (· + 1) hlength, (hone _ _ _ hit).append hspells⟩

theorem itemsToBreak_eq_ok (hone : Sound one room) {its : List Item}
    (h : itemsToBreak one loops c = .ok (its, c')) :
    Spells room c.rest its ([0xFF] ++ c'.rest) := by
  induction loops generalizing c its with
  | zero => cases h
  | succ loops ih =>
    unfold itemsToBreak at h
    split at h
    · cases h
    · rename_i rest hrest
      cases h
      rw [hrest]
      exact .nil
    · obtain ⟨⟨it, next⟩, hit, h⟩ := bind_eq_ok_iff.mp h
      obtain ⟨⟨more, last⟩, hmore, h⟩ := bind_eq_ok_iff.mp h
      cases h
      exact (hone _ _ _ hit).append (ih hmore)

theorem entries_eq_ok (hone : Sound one room) {count : Nat} {es : List (Item × Item)}
    (h : entries one count c = .ok (es, c')) :
    es.length = count ∧ Spells room c.rest (flatten es) c'.rest := by
  induction count generalizing c es with
  | zero =>
    cases h
    exact ⟨rfl, .nil⟩
  | succ count ih =>
    obtain ⟨⟨key, next⟩, hkey, h⟩ := bind_eq_ok_iff.mp h
    obtain ⟨⟨value, after⟩, hvalue, h⟩ := bind_eq_ok_iff.mp h
    obtain ⟨⟨more, last⟩, hmore, h⟩ := bind_eq_ok_iff.mp h
    cases h
    obtain ⟨hlength, hspells⟩ := ih hmore
    have hentry := (hone _ _ _ hkey).append (hone _ _ _ hvalue)
    exact ⟨congrArg (· + 1) hlength, hentry.append hspells⟩

theorem entriesToBreak_eq_ok (hone : Sound one room) {es : List (Item × Item)}
    (h : entriesToBreak one loops c = .ok (es, c')) :
    Spells room c.rest (flatten es) ([0xFF] ++ c'.rest) := by
  induction loops generalizing c es with
  | zero => cases h
  | succ loops ih =>
    unfold entriesToBreak at h
    split at h
    · cases h
    · rename_i rest hrest
      cases h
      rw [hrest]
      exact .nil
    · obtain ⟨⟨key, next⟩, hkey, h⟩ := bind_eq_ok_iff.mp h
      obtain ⟨⟨value, after⟩, hvalue, h⟩ := bind_eq_ok_iff.mp h
      obtain ⟨⟨more, last⟩, hmore, h⟩ := bind_eq_ok_iff.mp h
      cases h
      have hentry := (hone _ _ _ hkey).append (hone _ _ _ hvalue)
      exact hentry.append (ih hmore)

-- What is entered is read with one level less.
def Inside (inner : Option (Step Item)) (room : Nat) : Prop :=
  ∀ one, inner = some one → ∃ below, room = below + 1 ∧ Sound one below

theorem enter_eq_ok (hinner : Inside inner room) (h : enter inner c = .ok one) :
    ∃ below, room = below + 1 ∧ Sound one below := by
  cases inner with
  | none => cases h
  | some other =>
    cases h
    exact hinner _ rfl

theorem arrayItem_eq_ok (hinner : Inside inner room) (hmajor : b.toNat / 32 = 4)
    (h : arrayItem loops inner (b.toNat % 32) c = .ok (it, c')) :
    Spells room (b :: c.rest) [it] c'.rest := by
  simp only [arrayItem] at h
  split at h
  · rename_i hinfo
    obtain ⟨one, hone, h⟩ := bind_eq_ok_iff.mp h
    obtain ⟨⟨its, next⟩, hits, h⟩ := bind_eq_ok_iff.mp h
    cases h
    obtain ⟨below, rfl, hone⟩ := enter_eq_ok hinner hone
    exact .array (.toBreak hmajor hinfo) (itemsToBreak_eq_ok hone hits) .nil
  · obtain ⟨⟨count, next⟩, hargument, h⟩ := bind_eq_ok_iff.mp h
    obtain ⟨one, hone, h⟩ := bind_eq_ok_iff.mp h
    obtain ⟨⟨its, last⟩, hits, h⟩ := bind_eq_ok_iff.mp h
    cases h
    obtain ⟨below, rfl, hone⟩ := enter_eq_ok hinner hone
    obtain ⟨rfl, hspells⟩ := items_eq_ok hone hits
    exact .array (.stated (.intro hmajor (argument_eq_ok hargument))) hspells .nil

theorem mapItem_eq_ok (hinner : Inside inner room) (hmajor : b.toNat / 32 = 5)
    (h : mapItem loops inner (b.toNat % 32) c = .ok (it, c')) :
    Spells room (b :: c.rest) [it] c'.rest := by
  simp only [mapItem] at h
  split at h
  · rename_i hinfo
    obtain ⟨one, hone, h⟩ := bind_eq_ok_iff.mp h
    obtain ⟨⟨es, next⟩, hes, h⟩ := bind_eq_ok_iff.mp h
    cases h
    obtain ⟨below, rfl, hone⟩ := enter_eq_ok hinner hone
    exact .map (.toBreak hmajor hinfo) (entriesToBreak_eq_ok hone hes) .nil
  · obtain ⟨⟨count, next⟩, hargument, h⟩ := bind_eq_ok_iff.mp h
    obtain ⟨one, hone, h⟩ := bind_eq_ok_iff.mp h
    obtain ⟨⟨es, last⟩, hes, h⟩ := bind_eq_ok_iff.mp h
    cases h
    obtain ⟨below, rfl, hone⟩ := enter_eq_ok hinner hone
    obtain ⟨rfl, hspells⟩ := entries_eq_ok hone hes
    exact .map (.stated (.intro hmajor (argument_eq_ok hargument))) hspells .nil

theorem taggedItem_eq_ok (hinner : Inside inner room) (hmajor : b.toNat / 32 = 6)
    (h : taggedItem inner (b.toNat % 32) c = .ok (it, c')) :
    Spells room (b :: c.rest) [it] c'.rest := by
  obtain ⟨⟨n, next⟩, hargument, h⟩ := bind_eq_ok_iff.mp h
  obtain ⟨one, hone, h⟩ := bind_eq_ok_iff.mp h
  obtain ⟨below, rfl, hone⟩ := enter_eq_ok hinner hone
  exact .tagged (.intro hmajor (argument_eq_ok hargument)) (hone _ _ _ h) .nil

theorem sound_itemWith (hinner : Inside inner room) : Sound (itemWith loops inner) room := by
  rintro ⟨bytes, offset⟩ it c' h
  cases bytes with
  | nil => cases h
  | cons b rest =>
    rw [itemWith_cons] at h
    unfold body at h
    split at h
    · rename_i hmajor
      obtain ⟨⟨n, next⟩, hargument, h⟩ := bind_eq_ok_iff.mp h
      cases h
      exact .leaf (.natural (.intro hmajor (argument_eq_ok hargument))) .nil
    · rename_i hmajor
      obtain ⟨⟨n, next⟩, hargument, h⟩ := bind_eq_ok_iff.mp h
      cases h
      exact .leaf (.negative (.intro hmajor (argument_eq_ok hargument))) .nil
    · rename_i hmajor
      exact .leaf (byteString_eq_ok hmajor h) .nil
    · rename_i hmajor
      exact .leaf (textString_eq_ok hmajor h) .nil
    · rename_i hmajor
      exact arrayItem_eq_ok hinner hmajor h
    · rename_i hmajor
      exact mapItem_eq_ok hinner hmajor h
    · rename_i hmajor
      exact taggedItem_eq_ok hinner hmajor h
    · rename_i h0 h1 h2 h3 h4 h5 h6
      have hbyte := b.toNat_lt
      have hmajor : b.toNat / 32 = 7 := by
        simp only [imp_false] at h0 h1 h2 h3 h4 h5 h6
        omega
      exact .leaf (.simple hmajor (simpleItem_eq_ok h)) .nil

end Containers

theorem sound_item (loops room : Nat) : Sound (item loops room) room := by
  induction room with
  | zero => exact sound_itemWith fun _ h => by cases h
  | succ room ih =>
    refine sound_itemWith fun one hone => ?_
    cases hone
    exact ⟨room, rfl, ih⟩

theorem spells_of_parse {bytes : Bytes} {it : Item} (h : parse bytes = .ok it) :
    Spells maxDepth bytes [it] [] := by
  obtain ⟨⟨root, c⟩, hroot, hrest⟩ := bind_eq_ok_iff.mp h
  have hspells := sound_item _ _ _ _ _ hroot
  dsimp only at hrest
  split at hrest
  · rename_i hnil
    cases hrest
    rwa [hnil] at hspells
  · cases hrest

end LightningRecords.Cbor

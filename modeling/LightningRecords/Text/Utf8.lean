import LightningRecords.Bytes

namespace LightningRecords.Text

-- The UTF-8 bytes of a text.
def bytes (text : String) : Bytes := text.toByteArray.data.toList

-- Texts are ordered by their UTF-8 bytes.
def compare (a b : String) : Ordering := Bytes.compare (bytes a) (bytes b)

-- The text that the bytes spell, if they are UTF-8.
def ofBytes? (bytes : Bytes) : Option String := String.fromUTF8? ⟨bytes.toArray⟩

-- How far a run of whole characters reaches from position `start`.
def validFrom (bytes : ByteArray) : Nat → Nat → Nat
  | 0, start => start
  | fuel + 1, start =>
    match bytes.utf8DecodeChar? start with
    | some c => validFrom bytes fuel (start + c.utf8Size)
    | none => start

-- Length of the longest beginning of the bytes that is UTF-8.
def validLength (bytes : Bytes) : Nat := validFrom ⟨bytes.toArray⟩ bytes.length 0

theorem bytes_injective {a b : String} (h : bytes a = bytes b) : a = b := by
  apply String.toByteArray_inj.mp
  apply ByteArray.ext
  exact Array.toList_inj.mp h

@[simp] theorem length_bytes (text : String) : (bytes text).length = text.utf8ByteSize := by
  rfl

@[simp] theorem ofBytes?_bytes (text : String) : ofBytes? (bytes text) = some text := by
  have h : (⟨(bytes text).toArray⟩ : ByteArray) = text.toByteArray := by
    cases hx : text.toByteArray
    simp [bytes, hx]
  simp [ofBytes?, String.fromUTF8?, h, text.isValidUTF8, String.fromUTF8]

theorem eq_bytes_of_ofBytes? {b : Bytes} {text : String} (h : ofBytes? b = some text) :
    b = bytes text := by
  simp only [ofBytes?, String.fromUTF8?] at h
  split at h
  · simp only [Option.some.injEq] at h
    simp [← h, bytes, String.fromUTF8]
  · simp at h

instance : Std.TransCmp Text.compare where
  eq_swap {a b} := @Std.OrientedCmp.eq_swap _ Bytes.compare _ (bytes a) (bytes b)
  isLE_trans {a b c} := @Std.TransCmp.isLE_trans _ Bytes.compare _ (bytes a) (bytes b) (bytes c)

instance : Std.LawfulEqCmp Text.compare where
  compare_self {a} := @Std.ReflCmp.compare_self _ Bytes.compare _ (bytes a)
  eq_of_compare {a b} h :=
    bytes_injective (@Std.LawfulEqCmp.eq_of_compare _ Bytes.compare _ (bytes a) (bytes b) h)

-- Shorter texts first, texts of one length by their bytes.
def compareByLength : String → String → Ordering :=
  compareLex (compareOn String.utf8ByteSize) Text.compare

instance : Std.TransCmp compareByLength :=
  inferInstanceAs (Std.TransCmp (compareLex (compareOn String.utf8ByteSize) Text.compare))

instance : Std.LawfulEqCmp compareByLength where
  compare_self := Std.ReflCmp.compare_self
  eq_of_compare h := Std.LawfulEqCmp.eq_of_compare (compareLex_eq_eq.mp h).2

end LightningRecords.Text

namespace LightningRecords

-- Bytes as they are stored, hashed and compared.
abbrev Bytes := List UInt8

namespace Bytes

-- Bytewise order: the first byte that differs decides, and a byte string comes
-- before its own continuations.
def compare (a b : Bytes) : Ordering := List.compareLex Ord.compare a b

instance : Std.TransCmp Bytes.compare :=
  inferInstanceAs (Std.TransCmp (List.compareLex (Ord.compare (α := UInt8))))

instance : Std.LawfulEqCmp Bytes.compare :=
  inferInstanceAs (Std.LawfulEqCmp (List.compareLex (Ord.compare (α := UInt8))))

-- The last `width` base 256 digits of a number, most significant first.
def bigEndian : Nat → Nat → Bytes
  | 0, _ => []
  | width + 1, n => bigEndian width (n / 256) ++ [UInt8.ofNat n]

-- The number that the bytes are the base 256 digits of.
def toNat (bytes : Bytes) : Nat := bytes.foldl (fun n b => n * 256 + b.toNat) 0

-- The first `count` bytes and those after them, if there are that many.
def split? (count : Nat) (bytes : Bytes) : Option (Bytes × Bytes) :=
  let front := bytes.take count
  if front.length = count then some (front, bytes.drop count) else none

@[simp] theorem length_bigEndian (width n : Nat) : (bigEndian width n).length = width := by
  induction width generalizing n with
  | zero => rfl
  | succ width ih => simp [bigEndian, ih]

theorem split?_append (front rest : Bytes) :
    split? front.length (front ++ rest) = some (front, rest) := by
  simp [split?]

theorem split?_eq_none_iff (count : Nat) (bytes : Bytes) :
    split? count bytes = none ↔ bytes.length < count := by
  simp only [split?, List.length_take, ite_eq_right_iff, reduceCtorEq, imp_false]
  omega

end Bytes

end LightningRecords

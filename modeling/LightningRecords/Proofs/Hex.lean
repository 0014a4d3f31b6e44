import LightningRecords.Hex

namespace LightningRecords.Hex

-- The byte of a digit with its case taken away.
def lower (b : UInt8) : UInt8 := if 65 ≤ b && b ≤ 70 then b + 32 else b

-- Two texts that differ in nothing but the case of their digits.
def SameButCase (a b : String) : Prop := (Text.bytes a).map lower = (Text.bytes b).map lower

instance (a b : String) : Decidable (SameButCase a b) := inferInstanceAs (Decidable (_ = _))

-- The byte of the lower case digit for a number.
def digitByte (n : UInt8) : UInt8 := if n < 10 then n + 48 else n + 87

-- Two lower case digits for each byte.
def digits (bytes : Bytes) : Bytes := bytes.flatMap fun b => [digitByte (b / 16), digitByte (b % 16)]

theorem lower_of_digit? {b n : UInt8} (h : digit? b = some n) : n < 16 ∧ lower b = digitByte n := by
  have hall : ∀ k < 256, ∀ n ∈ digit? (UInt8.ofNat k), n < 16 ∧ lower (UInt8.ofNat k) = digitByte n := by
    decide +kernel
  rw [← UInt8.ofNat_toNat (x := b)] at h ⊢
  exact hall _ b.toNat_lt n h

theorem halves {high low : UInt8} (hhigh : high < 16) (hlow : low < 16) :
    (high * 16 + low) / 16 = high ∧ (high * 16 + low) % 16 = low := by
  have hhigh : high.toNat < 16 := hhigh
  have hlow : low.toNat < 16 := hlow
  have hsixteen : (16 : UInt8).toNat = 16 := rfl
  have hbyte : (high * 16 + low).toNat = high.toNat * 16 + low.toNat := by
    rw [UInt8.toNat_add, UInt8.toNat_mul, hsixteen]
    omega
  constructor
  · apply UInt8.toNat_inj.mp
    rw [UInt8.toNat_div, hbyte, hsixteen]
    omega
  · apply UInt8.toNat_inj.mp
    rw [UInt8.toNat_mod, hbyte, hsixteen]
    omega

-- By induction over the pairs: an accepted text is the digits of its bytes, once its case is
-- taken away.
theorem lower_of_decodeOnto {read text bytes : Bytes} {position : Nat}
    (h : decodeOnto read position text = .ok bytes) :
    digits read.reverse ++ text.map lower = digits bytes := by
  induction read, position, text using decodeOnto.induct with
  | case1 read position =>
    cases h
    simp
  | case2 => cases h
  | case3 read position high low rest n m hlow hhigh ih =>
    rw [decodeOnto, hhigh, hlow] at h
    obtain ⟨hn, hhigh⟩ := lower_of_digit? hhigh
    obtain ⟨hm, hlow⟩ := lower_of_digit? hlow
    obtain ⟨hdiv, hmod⟩ := halves hn hm
    rw [← ih h]
    simp [digits, hdiv, hmod, hhigh, hlow]
  | case4 read position high low rest hhigh =>
    rw [decodeOnto, hhigh] at h
    cases h
  | case5 read position high low rest hlow =>
    cases hdigit : digit? high <;> rw [decodeOnto, hdigit, hlow] at h <;> cases h

theorem sameButCase_of_decode {a b : String} {bytes : Bytes} (ha : decode a = .ok bytes)
    (hb : decode b = .ok bytes) : SameButCase a b := by
  have hdigits : ∀ text, decode text = .ok bytes → (Text.bytes text).map lower = digits bytes := by
    intro text h
    unfold decode at h
    split at h
    · cases h
    · exact lower_of_decodeOnto h
  exact (hdigits a ha).trans (hdigits b hb).symm

end LightningRecords.Hex

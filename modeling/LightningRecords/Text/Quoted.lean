namespace LightningRecords.Text

def hexDigit (n : Nat) : Char := if n < 10 then Char.ofNat (48 + n) else Char.ofNat (87 + n)

-- Hexadecimal digits of a number, without leading zeros.
def hexNumber (n : Nat) : String := String.ofList (Nat.toDigits 16 n)

-- Control characters, the no-break space and the soft hyphen leave no mark on paper.
def isInvisible (c : Char) : Bool :=
  let n := c.toNat
  n < 0x20 || (0x7F ≤ n && n ≤ 0xA0) || n = 0xAD

-- A character between apostrophes. What cannot be seen, or would end the
-- quotation, is written as an escape.
def quoted (c : Char) : String :=
  let inner :=
    match c with
    | '\x00' => "\\0"
    | '\t' => "\\t"
    | '\n' => "\\n"
    | '\r' => "\\r"
    | '\'' => "\\'"
    | '\\' => "\\\\"
    | c => if isInvisible c then "\\u\x7b" ++ hexNumber c.toNat ++ "\x7d" else String.singleton c
  "'" ++ inner ++ "'"

end LightningRecords.Text

namespace LightningRecords.Text

-- The White_Space property: tabs, line ends and the spaces of every width. The
-- zero width space is not one of them.
def isBlankChar (c : Char) : Bool :=
  let n := c.toNat
  (9 ≤ n && n ≤ 13) || n = 0x20 || n = 0x85 || n = 0xA0 || n = 0x1680 ||
    (0x2000 ≤ n && n ≤ 0x200A) || n = 0x2028 || n = 0x2029 || n = 0x202F || n = 0x205F ||
    n = 0x3000

-- A text of white space alone, the empty one included.
def isBlank (text : String) : Bool := text.toList.all isBlankChar

end LightningRecords.Text

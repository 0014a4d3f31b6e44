namespace LightningRecords.Duration

-- Spans of time are counted in nanoseconds.
def microsecond : Nat := 1000

def millisecond : Nat := 1000 * microsecond

def second : Nat := 1000 * millisecond

-- The part after the point, to so many places, without trailing zeros.
def decimals (places part : Nat) : String :=
  let digits := (Nat.toDigits 10 part).leftpad places '0'
  let kept := (digits.reverse.dropWhile (· = '0')).reverse
  if kept.isEmpty then "" else "." ++ String.ofList kept

-- A span in a unit of `size` nanoseconds, which is a power of ten.
def inUnit (size places nanoseconds : Nat) (unit : String) : String :=
  toString (nanoseconds / size) ++ decimals places (nanoseconds % size) ++ unit

-- A span of time in the largest unit of which it has at least one.
def text (nanoseconds : Nat) : String :=
  if second ≤ nanoseconds then inUnit second 9 nanoseconds "s"
  else if millisecond ≤ nanoseconds then inUnit millisecond 6 nanoseconds "ms"
  else if microsecond ≤ nanoseconds then inUnit microsecond 3 nanoseconds "µs"
  else toString nanoseconds ++ "ns"

end LightningRecords.Duration

/-! Numerals: how numbers are spelt, and the values of digits. -/

namespace FencedSessions.Text

/-- The decimal numeral of `n`, without leading zeros. -/
def decimal (n : Nat) : List Char := Nat.toDigits 10 n

/-- The decimal numeral as a string. -/
def numeral (n : Nat) : String := String.ofList (decimal n)

/-- The hexadecimal numeral of `n` in lower case, without leading zeros. -/
def hex (n : Nat) : List Char := Nat.toDigits 16 n

/-- The lowest `width` digits of `n` in a base up to sixteen. -/
def padded (base : Nat) : (width : Nat) → (n : Nat) → List Char
  | 0, _ => []
  | width + 1, n => padded base width (n / base) ++ [(n % base).digitChar]

/-- The decimal numeral of an integer, with a sign if it is negative. -/
def signed (n : Int) : List Char :=
  if n < 0 then '-' :: decimal n.natAbs else decimal n.natAbs

/-- The value of a run of decimal digits. -/
def decimalValue (cs : List Char) : Nat := Nat.ofDigitChars 10 cs 0

/-- The value of a decimal digit. -/
def decimalValue? (c : Char) : Option Nat :=
  if c.isDigit then some (c.toNat - 48) else none

/-- The value of a hexadecimal digit of either case. -/
def hexValue? (c : Char) : Option Nat :=
  let n := c.toNat
  if 48 ≤ n ∧ n ≤ 57 then some (n - 48)
  else if 97 ≤ n ∧ n ≤ 102 then some (n - 87)
  else if 65 ≤ n ∧ n ≤ 70 then some (n - 55)
  else none

/-- The value of a run of hexadecimal digits. -/
def hexNumber? (cs : List Char) : Option Nat :=
  cs.foldl (fun n? c => n?.bind fun n => (hexValue? c).map (n * 16 + ·)) (some 0)

end FencedSessions.Text

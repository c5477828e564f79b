import FencedSessions.Text.Digits
import FencedSessions.Text.Scan
import FencedSessions.Word

/-! Numerals of TOML: integers in four bases and floats, with single underscores between digits. -/

namespace FencedSessions.Toml

open Scan

/-- Digits of a class, an underscore allowed between two of them. -/
def digits (isDigit : Char → Bool) : Scan (List Char) := do
  let c ← one isDigit
  let cs ← many (one isDigit <|> (do char '_'; one isDigit))
  return c :: cs

/-- An optional sign: whether it is a minus. -/
def sign : Scan Bool := (do char '-'; return true) <|> (do char '+'; return false) <|> pure false

/-- Decimal digits, the first of them not a zero unless it is the only one. -/
def whole : Scan (List Char) := fun cs =>
  match cs with
  | '0' :: cs => some (['0'], cs)
  | cs => digits Char.isDigit cs

/-- An integer that fits in a signed 64-bit word. -/
def signedWord (n : Int) : Scan Int :=
  if Word.isSigned64 n then return n else failure

/-- An integer with a zero and a letter for its base in front. -/
def based (letter : Char) (base : Nat) : Scan Int := do
  word ['0', letter]
  let ds ← digits fun c => match Text.hexValue? c with
    | some v => v < base
    | none => false
  signedWord (ds.foldl (fun n c => n * base + (Text.hexValue? c).getD 0) 0 : Nat)

def decimalInteger : Scan Int := do
  let minus ← sign
  let n : Int := Text.decimalValue (← whole)
  signedWord (if minus then -n else n)

def integer : Scan Int := based 'x' 16 <|> based 'o' 8 <|> based 'b' 2 <|> decimalInteger

/-- The power of ten of a float, with its letter and sign. -/
def exponent : Scan Int := do
  let _ ← one fun c => c = 'e' || c = 'E'
  let minus ← sign
  let n : Int := Text.decimalValue (← digits Char.isDigit)
  return if minus then -n else n

/-- The binary64 nearest to `m · 10^e`, unless it is too large. -/
def nearest? (m : Nat) (e : Int) : Option Float :=
  let magnitude : Int := (Text.decimal m).length + e
  if m = 0 || magnitude < -400 then some 0.0
  else if 400 < magnitude then none
  else
    let f := Float.ofScientific m (e < 0) e.natAbs
    if f.isInf then none else some f

def signedBits (minus : Bool) (f : Float) : UInt64 := (if minus then -f else f).toBits

/-- A float in digits. One that is too large is refused, and minus infinity below zero. -/
def decimalFloat : Scan UInt64 := do
  let minus ← sign
  let ds ← whole
  let fraction ← maybe (do char '.'; digits Char.isDigit)
  let power ← if fraction.isSome then (do return (← maybe exponent).getD 0) else exponent
  let places := fraction.getD []
  match nearest? (Text.decimalValue (ds ++ places)) (power - places.length) with
  | some f => return signedBits minus f
  | none => if minus then return signedBits true (1.0 / 0.0) else failure

/-- An infinity or no number, under its name. -/
def namedFloat : Scan UInt64 := do
  let minus ← sign
  (do word ['i', 'n', 'f']; return signedBits minus (1.0 / 0.0)) <|>
    (do word ['n', 'a', 'n']; return signedBits minus (0.0 / 0.0))

def float : Scan UInt64 := decimalFloat <|> namedFloat

end FencedSessions.Toml

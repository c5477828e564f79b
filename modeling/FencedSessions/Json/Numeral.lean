import FencedSessions.Decimal.Shortest
import FencedSessions.Json.Basic
import FencedSessions.Text.Digits
import FencedSessions.Word

/-! JSON numerals. A numeral without fraction and exponent between -2⁶³ and 2⁶⁴ is an integer,
except `-0`. Any other is a binary64: its first digits, as many as fit in 64 bits, are rounded
and then scaled by one correctly rounded power of ten. -/

namespace FencedSessions

namespace Number

/-- Takes digits while the number they spell fits in 64 bits. Answers that number and how many
digits were taken. -/
def accumulate (sig : Nat) : (digits : List Char) → Nat × Nat
  | [] => (sig, 0)
  | c :: cs =>
    let sig' := sig * 10 + (c.toNat - 48)
    if sig' < Word.size64 then
      let (s, n) := accumulate sig' cs
      (s, n + 1)
    else (sig, 0)

def powerOfTen (e : Nat) : Float := Float.ofScientific 1 false e

/-- `sig · 10^e` as a magnitude, unless it is too large. -/
def scale? (sig : Nat) (e : Int) : Option Float :=
  let f := sig.toUInt64.toFloat
  if 0 ≤ e then
    if e ≤ 308 then
      let g := f * powerOfTen e.toNat
      if g.isInf then none else some g
    else if sig = 0 then some 0.0 else none
  else if -308 ≤ e then some (f / powerOfTen (-e).toNat)
  else if sig = 0 then some 0.0
  else if -616 ≤ e then some (f / powerOfTen 308 / powerOfTen (-e - 308).toNat)
  else some 0.0

def ofFloat (negative : Bool) (f : Float) : Number :=
  .float (if negative then -f else f).toBits

/-- The parts of a numeral. The exponent is a sign, true for minus, and digits. -/
structure Parts where
  negative : Bool
  whole : List Char
  fraction : Option (List Char)
  exponent : Option (Bool × List Char)

def exponentLimit : Nat := 2147483647

/-- The number that a numeral names, unless it is too large for a binary64. -/
def ofParts? (p : Parts) : Option Number :=
  let (sig, used) := accumulate 0 p.whole
  let dropped := p.whole.length - used
  if p.fraction.isNone && p.exponent.isNone && dropped == 0 then
    if !p.negative then some (.int sig)
    else if 0 < sig && sig ≤ Word.half64 then some (.int (-(sig : Int)))
    else some (ofFloat true sig.toUInt64.toFloat)
  else
    let (sig, places) := accumulate sig (p.fraction.getD [])
    let start : Int := (dropped : Int) - places
    match p.exponent with
    | none => (scale? sig start).map (ofFloat p.negative)
    | some (minus, digits) =>
      let e := Text.decimalValue digits
      if exponentLimit < e then
        if sig = 0 || minus then some (ofFloat p.negative 0.0) else none
      else (scale? sig (if minus then start - e else start + e)).map (ofFloat p.negative)

/-- The text of a magnitude: positional up to sixteen digits before the point and five zeros
after it, with an exponent beyond. -/
def magnitudeChars (d : Decimal.Digits) : List Char :=
  let ds := Text.decimal d.digits
  let point := (ds.length : Int) + d.exponent
  if 0 ≤ d.exponent ∧ point ≤ 16 then
    ds ++ List.replicate d.exponent.toNat '0' ++ ['.', '0']
  else if 0 < point ∧ point ≤ 16 then
    ds.take point.toNat ++ '.' :: ds.drop point.toNat
  else if -5 < point ∧ point ≤ 0 then
    '0' :: '.' :: (List.replicate (-point).toNat '0' ++ ds)
  else
    match ds with
    | [d] => d :: 'e' :: Text.signed (point - 1)
    | d :: rest => d :: '.' :: (rest ++ 'e' :: Text.signed (point - 1))
    | [] => []

def floatChars (bits : UInt64) : List Char :=
  let negative := Word.half64 ≤ bits.toNat
  let b := Decimal.Binary.ofBits bits
  let body := if b.m = 0 then ['0', '.', '0'] else magnitudeChars (Decimal.shortest b)
  if negative then '-' :: body else body

/-- The numeral of a number. -/
def chars : Number → List Char
  | .int n => Text.signed n
  | .float bits => floatChars bits

end Number

end FencedSessions

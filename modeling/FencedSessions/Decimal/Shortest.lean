import FencedSessions.Text.Digits

/-! Shortest decimal text of a binary64 number: the fewest significant digits whose decimal
lies closer to the number than to any other, and among those the nearest one. All arithmetic
is on natural numbers. -/

namespace FencedSessions.Decimal

/-- A positive binary64 number as `m · 2^q`, with the flag of a power of two whose lower
neighbour is half as far as its upper one. -/
structure Binary where
  m : Nat
  q : Int
  closeBelow : Bool

/-- The bit above the fraction, which is not stored: 2⁵². -/
def hiddenBit : Nat := 4503599627370496

/-- The magnitude that the lower 63 bits spell. -/
def Binary.ofBits (bits : UInt64) : Binary :=
  let frac : Nat := bits.toNat % hiddenBit
  let expo : Nat := bits.toNat / hiddenBit % 2048
  if expo = 0 then ⟨frac, -1074, false⟩
  else ⟨frac + hiddenBit, (expo : Int) - 1075, frac = 0 && 1 < expo⟩

/-- A fraction of two natural numbers. -/
structure Ratio where
  num : Nat
  den : Nat

/-- `n` quarters of `2^q`. -/
def Ratio.quarters (n : Nat) (q : Int) : Ratio :=
  if 2 ≤ q then ⟨n * Nat.pow 2 (q - 2).toNat, 1⟩ else ⟨n, Nat.pow 2 (2 - q).toNat⟩

/-- `c · 10^k` as a fraction. -/
def Ratio.decimal (c : Nat) (k : Int) : Ratio :=
  if 0 ≤ k then ⟨c * Nat.pow 10 k.toNat, 1⟩ else ⟨c, Nat.pow 10 (-k).toNat⟩

def Ratio.lt (a b : Ratio) : Bool := a.num * b.den < b.num * a.den

/-- The exponent of the first significant digit of a fraction below one, by trial. -/
def leadBelowOne (r : Ratio) : (fuel : Nat) → (j : Nat) → Nat
  | 0, j => j
  | fuel + 1, j => if r.den ≤ r.num * Nat.pow 10 j then j else leadBelowOne r fuel (j + 1)

/-- The power of ten of the first significant digit. -/
def lead (r : Ratio) : Int :=
  if r.den ≤ r.num then ((Text.decimal (r.num / r.den)).length : Int) - 1
  else -(leadBelowOne r 400 1 : Int)

/-- A decimal `digits · 10^exponent`. -/
structure Digits where
  digits : Nat
  exponent : Int
deriving DecidableEq, Repr

/-- The same decimal without zeros at its end, of which there are at most seventeen. -/
def Digits.trimmed (d : Digits) : Digits := go 17 d
where
  go : (fuel : Nat) → Digits → Digits
  | 0, d => d
  | fuel + 1, d =>
    if d.digits % 10 = 0 then go fuel ⟨d.digits / 10, d.exponent + 1⟩ else d

/-- The best decimal with its last digit at `10^k` that reads back as the number. -/
def candidate? (b : Binary) (k : Int) : Option Digits :=
  let v := Ratio.quarters (4 * b.m) b.q
  let lo := Ratio.quarters (4 * b.m - (if b.closeBelow then 1 else 2)) b.q
  let hi := Ratio.quarters (4 * b.m + 2) b.q
  let closed := b.m % 2 = 0
  let fits (c : Nat) : Bool :=
    let d := Ratio.decimal c k
    if closed then !(d.lt lo) && !(hi.lt d) else lo.lt d && d.lt hi
  let below := if 0 ≤ k then v.num / (v.den * Nat.pow 10 k.toNat)
    else v.num * Nat.pow 10 (-k).toNat / v.den
  let above := below + 1
  match 0 < below && fits below, fits above with
  | true, true =>
    -- twice the number against the sum of the two neighbours
    let mid := Ratio.decimal (below + above) k
    let twice : Ratio := ⟨2 * v.num, v.den⟩
    if twice.lt mid then some ⟨below, k⟩
    else if mid.lt twice then some ⟨above, k⟩
    else if below % 2 = 0 then some ⟨below, k⟩ else some ⟨above, k⟩
  | true, false => some ⟨below, k⟩
  | false, true => some ⟨above, k⟩
  | false, false => none

/-- The shortest decimal of a positive number. Seventeen digits always suffice. -/
def shortest (b : Binary) : Digits :=
  let p := lead (Ratio.quarters (4 * b.m) b.q)
  (((List.range 17).findSome? fun (d : Nat) => candidate? b (p - d)).getD ⟨b.m, 0⟩).trimmed

end FencedSessions.Decimal

import FencedSessions.Time.Instant
import FencedSessions.Time.Calendar
import FencedSessions.Text.Blank
import FencedSessions.Text.Digits

/-! RFC 3339 times. An instant is written in UTC with the fewest of 0, 3, 6 or 9 fraction digits
that lose nothing; years outside 0 to 9999 carry a sign. Reading is more liberal: any offset, a
blank for the `T`, blanks between the parts, and fraction digits beyond the ninth are dropped. -/

namespace FencedSessions

open Text

namespace Instant

def secondsPerDay : Int := 86400

def nanosPerSecond : Int := 1000000000

def yearText (y : Int) : List Char :=
  if 0 ≤ y ∧ y ≤ 9999 then padded 10 4 y.toNat
  else
    let digits := decimal y.natAbs
    (if y < 0 then '-' else '+') :: (List.replicate (4 - digits.length) '0' ++ digits)

def fractionText (nanos : Nat) : List Char :=
  if nanos = 0 then []
  else if nanos % 1000000 = 0 then '.' :: padded 10 3 (nanos / 1000000)
  else if nanos % 1000 = 0 then '.' :: padded 10 6 (nanos / 1000)
  else '.' :: padded 10 9 nanos

/-- The written form of an instant. -/
def chars (t : Instant) : List Char :=
  let secs := t.ns / nanosPerSecond
  let nanos := (t.ns % nanosPerSecond).toNat
  let date := Calendar.Date.ofDays (secs / secondsPerDay)
  let sod := (secs % secondsPerDay).toNat
  yearText date.year ++ '-' :: padded 10 2 date.month ++ '-' :: padded 10 2 date.day ++
    'T' :: padded 10 2 (sod / 3600) ++ ':' :: padded 10 2 (sod / 60 % 60) ++
    ':' :: padded 10 2 (sod % 60) ++ fractionText nanos ++ ['Z']

def text (t : Instant) : String := String.ofList t.chars

/-- Between one and `most` decimal digits, as many as there are. -/
def number? (most : Nat) (cs : List Char) : Option (Nat × List Char) :=
  let ds := (cs.take most).takeWhile Char.isDigit
  if ds.isEmpty then none else some (decimalValue ds, cs.drop ds.length)

/-- A numeral of any length. -/
def longNumber? (cs : List Char) : Option (Nat × List Char) :=
  let ds := cs.takeWhile Char.isDigit
  if ds.isEmpty then none else some (decimalValue ds, cs.dropWhile Char.isDigit)

/-- A year: four digits at most, or a sign and any number of digits. -/
def year? (cs : List Char) : Option (Int × List Char) :=
  match trimStart cs with
  | '-' :: cs => (longNumber? cs).map fun (n, r) => (-(n : Int), r)
  | '+' :: cs => (longNumber? cs).map fun (n, r) => ((n : Int), r)
  | cs => (number? 4 cs).map fun (n, r) => ((n : Int), r)

def twoDigits? (cs : List Char) : Option (Nat × List Char) := number? 2 (trimStart cs)

def literal? (c : Char) (cs : List Char) : Option (List Char) :=
  match trimStart cs with
  | d :: r => if d = c then some r else none
  | [] => none

/-- An optional fraction of a second, in nanoseconds. -/
def fraction? (cs : List Char) : Option (Nat × List Char) :=
  match cs with
  | '.' :: cs =>
    let ds := (cs.take 9).takeWhile Char.isDigit
    if ds.isEmpty then none
    else some (decimalValue ds * Nat.pow 10 (9 - ds.length), cs.dropWhile Char.isDigit)
  | cs => some (0, cs)

/-- An offset from UTC in seconds: `Z`, `UTC`, or signed hours and minutes. -/
def offset? (cs : List Char) : Option (Int × List Char) :=
  let clock (sign : Int) (cs : List Char) : Option (Int × List Char) :=
    match cs with
    | h1 :: h2 :: cs =>
      match cs.dropWhile fun c => c = ':' || isBlank c with
      | m1 :: m2 :: r => do
        let h ← (decimalValue? h1).bind fun a => (decimalValue? h2).map (a * 10 + ·)
        let m ← (decimalValue? m1).bind fun a => (decimalValue? m2).map (a * 10 + ·)
        if m < 60 then some (sign * (h * 3600 + m * 60), r) else none
      | _ => none
    | _ => none
  match cs with
  | 'Z' :: r | 'z' :: r => some (0, r)
  | '+' :: r => clock 1 r
  | '-' :: r | '−' :: r => clock (-1) r
  | u :: t :: c :: r =>
    if u.toUpper = 'U' ∧ t.toUpper = 'T' ∧ c.toUpper = 'C' then some (0, r) else none
  | _ => none

/-- The instant a text names. A sixtieth second is the first one of the next minute. -/
def ofChars? (cs : List Char) : Option Instant := do
  let (year, cs) ← year? cs
  let cs ← literal? '-' cs
  let (month, cs) ← twoDigits? cs
  let cs ← literal? '-' cs
  let (day, cs) ← twoDigits? cs
  let date : Calendar.Date := ⟨year, month, day⟩
  guard date.valid
  let cs ← match cs with
    | 'T' :: r | 't' :: r | ' ' :: r => some r
    | _ => none
  let (hour, cs) ← twoDigits? cs
  let cs ← literal? ':' cs
  let (minute, cs) ← twoDigits? cs
  let cs ← literal? ':' cs
  let (second, cs) ← twoDigits? cs
  guard (hour ≤ 23 ∧ minute ≤ 59 ∧ second ≤ 60)
  let (nanos, cs) ← fraction? cs
  let (offset, cs) ← offset? (trimStart cs)
  guard (offset.natAbs < 86400 ∧ trimStart cs = [])
  let stated := date.toDays * 86400 + hour * 3600 + minute * 60 + second
  let naive ← (⟨stated * nanosPerSecond⟩ : Instant).shift? nanos
  naive.shift? (-(offset * nanosPerSecond))

def ofText? (s : String) : Option Instant := ofChars? s.toList

end Instant

end FencedSessions

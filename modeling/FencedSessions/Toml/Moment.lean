import FencedSessions.Text.Digits
import FencedSessions.Text.Scan
import FencedSessions.Time.Calendar

/-! Dates and times of TOML. They are checked, and that is all that is asked of them. -/

namespace FencedSessions.Toml

open Scan

/-- A number of exactly so many digits, within bounds. -/
def fixedNumber (width low high : Nat) : Scan Nat := fun cs =>
  let ds := (cs.take width).takeWhile Char.isDigit
  let n := Text.decimalValue ds
  if ds.length = width ∧ low ≤ n ∧ n ≤ high then some (n, cs.drop width) else none

/-- A day that the calendar has. -/
def date : Scan Unit := do
  let year ← fixedNumber 4 0 9999
  char '-'
  let month ← fixedNumber 2 1 12
  char '-'
  let day ← fixedNumber 2 1 31
  guard (Calendar.Date.valid ⟨year, month, day⟩)

def clockTime : Scan Unit := do
  let _ ← fixedNumber 2 0 23
  char ':'
  let _ ← fixedNumber 2 0 59

/-- A time of day, to the second at least. -/
def timeOfDay : Scan Unit := do
  clockTime
  char ':'
  let _ ← fixedNumber 2 0 60
  let _ ← maybe (do
    char '.'
    let _ ← one Char.isDigit
    span Char.isDigit)

def zone : Scan Unit :=
  discard (one fun c => c = 'Z' || c = 'z') <|> (do
    let _ ← one fun c => c = '+' || c = '-'
    clockTime)

/-- A date, a time of day, or both with an optional zone. -/
def moment : Scan Unit :=
  (do
    date
    let _ ← maybe (do
      let _ ← one fun c => c = 'T' || c = 't' || c = ' '
      timeOfDay
      maybe zone)) <|> timeOfDay

end FencedSessions.Toml

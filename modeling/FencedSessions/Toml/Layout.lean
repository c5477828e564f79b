import FencedSessions.Text.Scan

/-! Blanks, line ends and comments of TOML. -/

namespace FencedSessions.Toml

open Scan

/-- Tabs, blanks, and every character above them but delete: what a line may hold. -/
def isLineChar (c : Char) : Bool := c = '\t' || (32 ≤ c.toNat && c ≠ '\x7f')

def blanks : Scan Unit := do
  let _ ← span fun c => c = ' ' || c = '\t'

def newline : Scan Unit := char '\n' <|> word ['\r', '\n']

/-- A comment up to the end of its line. -/
def comment : Scan Unit := do
  char '#'
  let _ ← span isLineChar

/-- What may stand after a statement: blanks, a comment, and the end of the line or the text. -/
def lineEnd : Scan Unit := do
  blanks
  let _ ← maybe comment
  newline <|> done

/-- Blanks, line ends and whole comments between the parts of an array. -/
def filler : Scan Unit := do
  let _ ← many (discard (one fun c => c = ' ' || c = '\t') <|> newline <|> (do comment; newline))

end FencedSessions.Toml

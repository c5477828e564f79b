import FencedSessions.Text.Digits
import FencedSessions.Toml.Layout

/-! Quoted strings of TOML: basic ones with escapes, literal ones without, and the long form of
both, which may run over several lines and hold quotes of its own. -/

namespace FencedSessions.Toml

open Scan

/-- Exactly so many hexadecimal digits, as the code of a character. -/
def charCode (digits : Nat) : Scan Char := fun cs => do
  let ds := cs.take digits
  let n ← Text.hexNumber? ds
  if ds.length = digits ∧ n.isValidChar then some (Char.ofNat n, cs.drop digits) else none

/-- What follows the backslash of an escape. -/
def escape : Scan Char := do
  match ← one fun _ => true with
  | 'b' => return '\x08'
  | 't' => return '\t'
  | 'n' => return '\n'
  | 'f' => return '\x0c'
  | 'r' => return '\r'
  | '"' => return '"'
  | '\\' => return '\\'
  | 'u' => charCode 4
  | 'U' => charCode 8
  | _ => failure

def isBasicChar (c : Char) : Bool := isLineChar c && c ≠ '"' && c ≠ '\\'

def isLiteralChar (c : Char) : Bool := isLineChar c && c ≠ '\''

def basic : Scan String := do
  char '"'
  let cs ← many (one isBasicChar <|> (do char '\\'; escape))
  char '"'
  return String.ofList cs

def literal : Scan String := do
  char '\''
  let cs ← span isLiteralChar
  char '\''
  return String.ofList cs

/-- How many quotes come next. -/
def quoteCount (quote : Char) (cs : List Char) : Nat := (cs.takeWhile (· = quote)).length

/-- One or two quotes inside a long string. -/
def innerQuotes (quote : Char) : Scan (List Char) := fun cs =>
  let n := quoteCount quote cs
  if n = 1 ∨ n = 2 then some (List.replicate n quote, cs.drop n) else none

/-- The three quotes that end a long string, with up to two more in front that belong to it. -/
def closingQuotes (quote : Char) : Scan (List Char) := fun cs =>
  let n := quoteCount quote cs
  if n < 3 then none
  else
    let inner := min (n - 3) 2
    some (List.replicate inner quote, cs.drop (inner + 3))

/-- A long string of pieces. A line end next to its opening quotes is dropped. -/
def long (quote : Char) (piece : Scan (List Char)) : Scan String := do
  word [quote, quote, quote]
  let _ ← maybe newline
  let pieces ← many (piece <|> innerQuotes quote)
  let last ← closingQuotes quote
  return String.ofList (pieces.flatten ++ last)

/-- A line end inside a long string. -/
def innerNewline : Scan (List Char) := do
  newline
  return ['\n']

/-- A backslash at the end of a line: it and all blanks and line ends after it are dropped. -/
def lineContinuation : Scan (List Char) := do
  char '\\'
  blanks
  newline
  let _ ← many (discard (one fun c => c = ' ' || c = '\t') <|> newline)
  return []

def longBasic : Scan String :=
  long '"' ((do return [← one isBasicChar]) <|> innerNewline <|> lineContinuation <|>
    (do char '\\'; return [← escape]))

def longLiteral : Scan String := long '\'' ((do return [← one isLiteralChar]) <|> innerNewline)

def quoted : Scan String := longBasic <|> basic <|> longLiteral <|> literal

end FencedSessions.Toml

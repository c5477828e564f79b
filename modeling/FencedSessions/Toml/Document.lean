import FencedSessions.Toml.Moment
import FencedSessions.Toml.Numeral
import FencedSessions.Toml.Quoted
import FencedSessions.Toml.Table

/-! TOML documents. A document is a list of lines: definitions, headers, and blank ones. The
definitions after a header belong to its table. -/

namespace FencedSessions.Toml

open Scan

/-- How many arrays and inline tables may nest, and how many parts a key may have. -/
def depthLimit : Nat := 79

def isBareChar (c : Char) : Bool := c.isAlphanum || c = '-' || c = '_'

def bareName : Scan String := do
  let cs ← span isBareChar
  if cs.isEmpty then failure else return String.ofList cs

/-- A key: names with dots between them and blanks around each. -/
def key : Scan Key := do
  let names ← separated (do
    blanks
    let name ← basic <|> literal <|> bareName
    blanks
    return name) (char '.')
  match names.getLast? with
  | some name => if names.length ≤ depthLimit then return ⟨names.dropLast, name⟩ else failure
  | none => failure

def boolean : Scan Bool :=
  (do word ['t', 'r', 'u', 'e']; return true) <|> (do word ['f', 'a', 'l', 's', 'e']; return false)

def scalar : Scan Value :=
  (do return .string (← quoted)) <|> (do moment; return .moment) <|>
    (do return .float (← float)) <|> (do return .integer (← integer)) <|>
    (do return .boolean (← boolean))

/-- The items of an array, after its opening bracket. A comma may follow the last one. -/
def arrayItems (item : Scan Value) : Scan (List Value) := do
  let items ← maybe (separated (do filler; let v ← item; filler; return v) (char ','))
  if items.isSome then
    let _ ← maybe (char ',')
  filler
  char ']'
  return items.getD []

/-- A key, an equals sign and a value. -/
def definition (value : Scan Value) : Scan (Key × Value) := do
  let k ← key
  char '='
  blanks
  let v ← value
  return (k, v)

/-- The definitions of an inline table, after its opening brace. -/
def inlineEntries (value : Scan Value) : Scan Value := do
  let found ← maybe (separated (do let d ← definition value; blanks; return d) (char ','))
  blanks
  char '\x7d'
  match (found.getD []).foldlM (fun es (k, v) => Entries.insert es k v) [] with
  | some es => return Entries.toValue es
  | none => failure

/-- A value in which so many arrays and inline tables may nest. -/
def value : (room : Nat) → Scan Value
  | 0 => scalar
  | room + 1 =>
    (do char '['; return .array (← arrayItems (value room))) <|>
      (do char '\x7b'; inlineEntries (value room)) <|> scalar

inductive Line where
  | blank
  | definition (k : Key) (v : Value)
  /-- A header; one in double brackets opens a further table of its name. -/
  | header (further : Bool) (k : Key)

def header : Scan Line :=
  (do
    word ['[', '[']
    let k ← key
    word [']', ']']
    return .header true k) <|> (do
    char '['
    let k ← key
    char ']'
    return .header false k)

def line : Scan Line := do
  blanks
  let l ← header <|> (do let (k, v) ← definition (value depthLimit); return .definition k v) <|>
    pure .blank
  lineEnd
  return l

/-- A header with the definitions that follow it. -/
structure Section where
  further : Bool
  header : Key
  definitions : List (Key × Value)

/-- The definitions before the first header, and the sections. -/
def sections : List Line → List (Key × Value) × List Section
  | [] => ([], [])
  | l :: ls =>
    let (definitions, rest) := sections ls
    match l with
    | .blank => (definitions, rest)
    | .definition k v => ((k, v) :: definitions, rest)
    | .header further k => ([], ⟨further, k, definitions⟩ :: rest)

def defineAll (definitions : List (Key × Value)) (es : Entries) : Option Entries :=
  definitions.foldlM (fun es (k, v) => es.insert k v) es

def addSection (es : Entries) (s : Section) : Option Entries :=
  let build := defineAll s.definitions
  Entries.descend (if s.further then Entries.openNext build else Entries.openTable build)
    s.header.name s.header.path es

/-- The table of a document, or nothing if the text is not TOML. A byte order mark in front is
dropped. -/
def ofText? (text : String) : Option Value := do
  let cs := match text.toList with
    | '\ufeff' :: cs => cs
    | cs => cs
  let (lines, rest) ← many line cs
  guard rest.isEmpty
  let (definitions, sections) := sections lines
  let es ← defineAll definitions []
  let es ← sections.foldlM addSection es
  return es.toValue

end FencedSessions.Toml

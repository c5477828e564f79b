import FencedSessions.Toml.Value

/-! Tables while a document is read. A name may be defined once. Which tables may still grow depends
on how they came about: one that is only implied by the header of a table inside it may get a
header of its own, and one that came from a dotted key takes more dotted keys. -/

namespace FencedSessions.Toml

/-- How a table came about. -/
inductive Origin where
  /-- It has a header. -/
  | header
  /-- A header of a table inside it implied it. -/
  | implied
  /-- A dotted key passed through it. -/
  | dotted
deriving DecidableEq, Repr

inductive Node where
  | value (v : Value)
  | table (origin : Origin) (entries : List (String × Node))
  /-- Tables that share a name, oldest first. -/
  | tables (ts : List (List (String × Node)))
deriving Repr, Inhabited

abbrev Entries := List (String × Node)

/-- A key: the tables that lead to a name, and the name. -/
structure Key where
  path : List String
  name : String
deriving DecidableEq, Repr

namespace Entries

/-- Changes what stands under a name, or puts something there. -/
def alter (name : String) (f : Option Node → Option Node) : Entries → Option Entries
  | [] => (f none).map fun n => [(name, n)]
  | (k, n) :: rest =>
    if k = name then (f (some n)).map fun n => (k, n) :: rest
    else (alter name f rest).map fun rest => (k, n) :: rest

/-- Changes the last of several tables. -/
def alterLast (f : Entries → Option Entries) : List Entries → Option (List Entries)
  | [] => none
  | [t] => (f t).map fun t => [t]
  | t :: ts => (alterLast f ts).map fun ts => t :: ts

/-- Defines a value under a dotted key. A table with a header is closed to dotted keys, and the last
table on the way must itself have come from one. -/
def define (v : Value) (name : String) : (path : List String) → Entries → Option Entries
  | [], es => alter name (fun found => match found with
    | none => some (.value v)
    | some _ => none) es
  | k :: path, es => alter k (fun found => match found with
    | none => (define v name path []).map (.table .dotted)
    | some (.table .header _) | some (.value _) => none
    | some (.table origin inner) =>
      if path.isEmpty && origin ≠ .dotted then none
      else (define v name path inner).map (.table origin)
    | some (.tables ts) =>
      if path.isEmpty then none else (alterLast (define v name path) ts).map .tables) es

def insert (es : Entries) (k : Key) (v : Value) : Option Entries := define v k.name k.path es

/-- Opens the table of a header and builds it up. -/
def openTable (build : Entries → Option Entries) : Option Node → Option Node
  | none => (build []).map (.table .header)
  | some (.table .implied inner) => (build inner).map (.table .header)
  | some _ => none

/-- Opens one more table of a name that several share. -/
def openNext (build : Entries → Option Entries) : Option Node → Option Node
  | none => (build []).map fun t => .tables [t]
  | some (.tables ts) => (build []).map fun t => .tables (ts ++ [t])
  | some _ => none

/-- Goes down to the place of a header. Of tables that share a name the last one counts. -/
def descend (f : Option Node → Option Node) (name : String) :
    (path : List String) → Entries → Option Entries
  | [], es => alter name f es
  | k :: path, es => alter k (fun found => match found with
    | none => (descend f name path []).map (.table .implied)
    | some (.table origin inner) => (descend f name path inner).map (.table origin)
    | some (.tables ts) => (alterLast (descend f name path) ts).map .tables
    | some (.value _) => none) es

end Entries

namespace Node

mutual
/-- The finished value. -/
def toValue : Node → Value
  | .value v => v
  | .table _ entries => .table (values entries)
  | .tables ts => .array (tableValues ts)

def values : List (String × Node) → List (String × Value)
  | [] => []
  | (k, n) :: entries => (k, n.toValue) :: values entries

def tableValues : List (List (String × Node)) → List Value
  | [] => []
  | t :: ts => .table (values t) :: tableValues ts
end

end Node

def Entries.toValue (es : Entries) : Value := .table (Node.values es)

end FencedSessions.Toml

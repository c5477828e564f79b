import FencedSessions.Json.Basic

/-! TOML values. -/

namespace FencedSessions.Toml

inductive Value where
  | string (s : String)
  /-- Between -2⁶³ and 2⁶³. -/
  | integer (n : Int)
  /-- A binary64, held by its bits. -/
  | float (bits : UInt64)
  | boolean (b : Bool)
  /-- A date, a time of day, or both. Nothing here asks which one. -/
  | moment
  | array (items : List Value)
  /-- Entries, each name once. -/
  | table (entries : List (String × Value))
deriving Repr, Inhabited

namespace Value

mutual
/-- The value as a reader of records sees it: a date or time counts as a table without any known
entry. -/
def toJson : Value → Json
  | .string s => .string s
  | .integer n => .int n
  | .float bits => .number (.float bits)
  | .boolean b => .bool b
  | .moment => .object []
  | .array items => .array (jsonItems items)
  | .table entries => .object (jsonEntries entries)

def jsonItems : List Value → List Json
  | [] => []
  | v :: vs => v.toJson :: jsonItems vs

def jsonEntries : List (String × Value) → List (String × Json)
  | [] => []
  | (k, v) :: entries => (k, v.toJson) :: jsonEntries entries
end

end Value

end FencedSessions.Toml

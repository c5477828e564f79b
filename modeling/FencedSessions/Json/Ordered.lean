import FencedSessions.Json.Basic

/-! Values with the fields of every object in order of names. -/

namespace FencedSessions.Json

mutual
/-- The same value with all fields in order. -/
def ordered : Json → Json
  | .array items => .array (orderedItems items)
  | .object fields => .sorted (orderedFields fields)
  | .null => .null
  | .bool b => .bool b
  | .number n => .number n
  | .string s => .string s

def orderedItems : List Json → List Json
  | [] => []
  | v :: vs => v.ordered :: orderedItems vs

def orderedFields : List (String × Json) → List (String × Json)
  | [] => []
  | (k, v) :: fields => (k, v.ordered) :: orderedFields fields
end

end FencedSessions.Json

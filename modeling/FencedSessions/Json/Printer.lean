import FencedSessions.Json.Numeral

/-! JSON text, in one line or indented by two blanks. Quotes, backslashes and control characters
are escaped; every other character stands for itself. -/

namespace FencedSessions.Json

def escaped (c : Char) : List Char :=
  if c = '"' then ['\\', '"']
  else if c = '\\' then ['\\', '\\']
  else if c = '\x08' then ['\\', 'b']
  else if c = '\x0c' then ['\\', 'f']
  else if c = '\n' then ['\\', 'n']
  else if c = '\r' then ['\\', 'r']
  else if c = '\t' then ['\\', 't']
  else if c.toNat < 32 then '\\' :: 'u' :: Text.padded 16 4 c.toNat
  else [c]

def quoted (s : String) : List Char := '"' :: (s.toList.flatMap escaped ++ ['"'])

mutual
/-- The text of a value in one line, in front of `rest`. -/
def charsOnto (rest : List Char) : Json → List Char
  | .null => 'n' :: 'u' :: 'l' :: 'l' :: rest
  | .bool true => 't' :: 'r' :: 'u' :: 'e' :: rest
  | .bool false => 'f' :: 'a' :: 'l' :: 's' :: 'e' :: rest
  | .number n => n.chars ++ rest
  | .string s => quoted s ++ rest
  | .array [] => '[' :: ']' :: rest
  | .array (v :: vs) => '[' :: charsOnto (itemsOnto (']' :: rest) vs) v
  | .object [] => '{' :: '}' :: rest
  | .object ((k, v) :: fields) =>
    '{' :: (quoted k ++ ':' :: charsOnto (fieldsOnto ('}' :: rest) fields) v)

/-- Further items, each after a comma. -/
def itemsOnto (rest : List Char) : List Json → List Char
  | [] => rest
  | v :: vs => ',' :: charsOnto (itemsOnto rest vs) v

/-- Further fields, each after a comma. -/
def fieldsOnto (rest : List Char) : List (String × Json) → List Char
  | [] => rest
  | (k, v) :: fields => ',' :: (quoted k ++ ':' :: charsOnto (fieldsOnto rest fields) v)
end

/-- The text of a value in one line. -/
def chars (j : Json) : List Char := charsOnto [] j

def text (j : Json) : String := String.ofList j.chars

def newline (depth : Nat) : List Char := '\n' :: List.replicate (2 * depth) ' '

mutual
/-- The indented text of a value at a depth, in front of `rest`. -/
def indentedOnto (rest : List Char) (depth : Nat) : Json → List Char
  | .array (v :: vs) =>
    '[' :: (newline (depth + 1) ++
      indentedOnto (indentedItems (newline depth ++ ']' :: rest) (depth + 1) vs) (depth + 1) v)
  | .object ((k, v) :: fields) =>
    '{' :: (newline (depth + 1) ++ quoted k ++ ':' :: ' ' ::
      indentedOnto (indentedFields (newline depth ++ '}' :: rest) (depth + 1) fields)
        (depth + 1) v)
  | .null => charsOnto rest .null
  | .bool b => charsOnto rest (.bool b)
  | .number n => charsOnto rest (.number n)
  | .string s => charsOnto rest (.string s)
  | .array [] => charsOnto rest (.array [])
  | .object [] => charsOnto rest (.object [])

def indentedItems (rest : List Char) (depth : Nat) : List Json → List Char
  | [] => rest
  | v :: vs =>
    ',' :: (newline depth ++ indentedOnto (indentedItems rest depth vs) depth v)

def indentedFields (rest : List Char) (depth : Nat) : List (String × Json) → List Char
  | [] => rest
  | (k, v) :: fields =>
    ',' :: (newline depth ++ quoted k ++ ':' :: ' ' ::
      indentedOnto (indentedFields rest depth fields) depth v)
end

/-- The indented text of a value. -/
def indented (j : Json) : String := String.ofList (indentedOnto [] 0 j)

end FencedSessions.Json

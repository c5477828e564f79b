/-! JSON values. Integers between -2⁶³ and 2⁶⁴ are exact; every other number is a binary64,
held by its bits. The fields of an object read from a text are sorted by name, each once. -/

namespace FencedSessions

inductive Number where
  | int (n : Int)
  | float (bits : UInt64)
deriving DecidableEq, Repr, Inhabited

inductive Json where
  | null
  | bool (b : Bool)
  | number (n : Number)
  | string (s : String)
  | array (items : List Json)
  | object (fields : List (String × Json))
deriving Repr, Inhabited

namespace Json

def nat (n : Nat) : Json := .number (.int n)

def int (n : Int) : Json := .number (.int n)

/-- A present value, or `null`. -/
def ofOption {α : Type} (f : α → Json) : Option α → Json
  | none => .null
  | some a => f a

/-- Puts a field at its place in the order of names; a field of that name is replaced. -/
def insertField {α : Type} (k : String) (v : α) : List (String × α) → List (String × α)
  | [] => [(k, v)]
  | (k', v') :: rest =>
    if k = k' then (k, v) :: rest
    else if k < k' then (k, v) :: (k', v') :: rest
    else (k', v') :: insertField k v rest

/-- Sorted fields, the last of each name winning. -/
def sortFields {α : Type} (fields : List (String × α)) : List (String × α) :=
  fields.foldl (fun acc (k, v) => insertField k v acc) []

/-- An object with its fields in order of names. -/
def sorted (fields : List (String × Json)) : Json := .object (sortFields fields)

def field? (name : String) : Json → Option Json
  | .object fields => fields.lookup name
  | _ => none

mutual
def decEq : (a b : Json) → Decidable (a = b)
  | .null, .null => isTrue rfl
  | .bool a, .bool b =>
    if h : a = b then isTrue (by rw [h]) else isFalse (by intro e; exact h (Json.bool.inj e))
  | .number a, .number b =>
    if h : a = b then isTrue (by rw [h]) else isFalse (by intro e; exact h (Json.number.inj e))
  | .string a, .string b =>
    if h : a = b then isTrue (by rw [h]) else isFalse (by intro e; exact h (Json.string.inj e))
  | .array a, .array b =>
    match decEqItems a b with
    | isTrue h => isTrue (by rw [h])
    | isFalse h => isFalse (by intro e; exact h (Json.array.inj e))
  | .object a, .object b =>
    match decEqFields a b with
    | isTrue h => isTrue (by rw [h])
    | isFalse h => isFalse (by intro e; exact h (Json.object.inj e))
  | .null, .bool _ | .null, .number _ | .null, .string _ | .null, .array _ | .null, .object _
  | .bool _, .null | .bool _, .number _ | .bool _, .string _ | .bool _, .array _
  | .bool _, .object _ | .number _, .null | .number _, .bool _ | .number _, .string _
  | .number _, .array _ | .number _, .object _ | .string _, .null | .string _, .bool _
  | .string _, .number _ | .string _, .array _ | .string _, .object _ | .array _, .null
  | .array _, .bool _ | .array _, .number _ | .array _, .string _ | .array _, .object _
  | .object _, .null | .object _, .bool _ | .object _, .number _ | .object _, .string _
  | .object _, .array _ => isFalse (by intro e; cases e)

def decEqItems : (a b : List Json) → Decidable (a = b)
  | [], [] => isTrue rfl
  | [], _ :: _ => isFalse (by intro e; cases e)
  | _ :: _, [] => isFalse (by intro e; cases e)
  | x :: xs, y :: ys =>
    match decEq x y, decEqItems xs ys with
    | isTrue h, isTrue hs => isTrue (by rw [h, hs])
    | isFalse h, _ => isFalse (by intro e; exact h (List.cons.inj e).1)
    | _, isFalse h => isFalse (by intro e; exact h (List.cons.inj e).2)

def decEqFields : (a b : List (String × Json)) → Decidable (a = b)
  | [], [] => isTrue rfl
  | [], _ :: _ => isFalse (by intro e; cases e)
  | _ :: _, [] => isFalse (by intro e; cases e)
  | (k, x) :: xs, (l, y) :: ys =>
    if hk : k = l then
      match decEq x y, decEqFields xs ys with
      | isTrue h, isTrue hs => isTrue (by rw [hk, h, hs])
      | isFalse h, _ => isFalse (by intro e; exact h (Prod.mk.inj (List.cons.inj e).1).2)
      | _, isFalse h => isFalse (by intro e; exact h (List.cons.inj e).2)
    else isFalse (by intro e; exact hk (Prod.mk.inj (List.cons.inj e).1).1)
end

instance : DecidableEq Json := decEq

end Json

end FencedSessions

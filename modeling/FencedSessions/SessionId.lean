import FencedSessions.Json.Record

/-! Session ids: 128 bits, written as 32 hexadecimal digits in five groups. -/

namespace FencedSessions

structure SessionId where
  bits : BitVec 128
deriving DecidableEq, Repr, Inhabited

namespace SessionId

def nil : SessionId := ⟨0⟩

def chars (id : SessionId) : List Char :=
  let n := id.bits.toNat
  let group (width after : Nat) := Text.padded 16 width (n / Nat.pow 16 after)
  group 8 24 ++ '-' :: group 4 20 ++ '-' :: group 4 16 ++ '-' :: group 4 12 ++
    '-' :: group 12 0

def text (id : SessionId) : String := String.ofList id.chars

def ofHex? (cs : List Char) : Option SessionId :=
  (Text.hexNumber? cs).map fun n => ⟨BitVec.ofNat 128 n⟩

/-- Thirty-six characters with hyphens after the first four groups. -/
def ofGroups? (cs : List Char) : Option SessionId :=
  match cs.drop 8, cs.drop 13, cs.drop 18, cs.drop 23 with
  | '-' :: _, '-' :: _, '-' :: _, '-' :: e =>
    if cs.length = 36 then
      ofHex? (cs.take 8 ++ (cs.drop 9).take 4 ++ (cs.drop 14).take 4 ++ (cs.drop 19).take 4 ++ e)
    else none
  | _, _, _, _ => none

/-- The id a text names: in groups, also in braces or after `urn:uuid:`, or without hyphens. -/
def ofChars? (cs : List Char) : Option SessionId :=
  if cs.length = 32 then ofHex? cs
  else if cs.length = 36 then ofGroups? cs
  else if cs.length = 38 then
    match cs with
    | '\x7b' :: rest => if cs.getLast? = some '\x7d' then ofGroups? rest.dropLast else none
    | _ => none
  else if cs.length = 45 && cs.take 9 = ['u', 'r', 'n', ':', 'u', 'u', 'i', 'd', ':'] then
    ofGroups? (cs.drop 9)
  else none

def ofText? (s : String) : Option SessionId := ofChars? s.toList

/-- The id of the `n`-th session: the decimal digits of `n` in the last group. -/
def fresh (n : Nat) : SessionId :=
  (ofGroups? ("00000000-0000-4000-8000-".toList ++ Text.padded 10 12 n)).getD nil

def toJson (id : SessionId) : Json := .string id.text

def reader : Json.Reader SessionId := Json.Reader.string.filterMap ofText?

/-- The order of the ids as numbers. -/
def before (a b : SessionId) : Bool := a.bits.toNat ≤ b.bits.toNat

end SessionId

end FencedSessions

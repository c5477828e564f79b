import FencedSessions.Json.Sketch
import FencedSessions.Word

/-! Readers turn a sketch into a value of some type. A reader meets the parts of a text in their
order and stops at the first thing amiss, so every mishap carries its place and the earliest
one is reported. -/

namespace FencedSessions.Json

/-- Something amiss, and its place as the path of positions that leads to it. -/
structure Mishap where
  place : List Nat
  flaw : Flaw
deriving DecidableEq, Repr

abbrev Reading (α : Type) := Except Mishap α

namespace Reading

/-- Whether a place comes before another, an enclosing place first. -/
def earlier : List Nat → List Nat → Bool
  | [], [] => false
  | [], _ :: _ => true
  | _ :: _, [] => false
  | a :: as, b :: bs => a < b || (a == b && earlier as bs)

/-- Applies one part to another; of two mishaps the earlier one counts. -/
def both {α β : Type} (f : Reading (α → β)) (a : Reading α) : Reading β :=
  match f, a with
  | .ok f, .ok a => .ok (f a)
  | .error e, .ok _ => .error e
  | .ok _, .error e => .error e
  | .error e, .error e' => .error (if earlier e'.place e.place then e' else e)

/-- Moves the mishap of a part to the part's place. -/
def inPart {α : Type} (i : Nat) : Reading α → Reading α
  | .ok a => .ok a
  | .error e => .error { e with place := i :: e.place }

def fail {α : Type} (flaw : Flaw) : Reading α := .error ⟨[], flaw⟩

end Reading

open Reading

namespace Sketch

/-- What is wrong with a value that is not of the wanted shape. A scalar is read to its end
before it is rejected. -/
def unwanted : Sketch → Flaw
  | .null | .bool _ | .array _ _ | .object _ _ => .misfit
  | .number (.ok _) | .string (.ok _) => .misfit
  | .number (.error f) | .string (.error f) => f
  | .absent => .truncated
  | .stray => .malformed
  | .brokenWord f | .brokenNumeral f => f
  | .brokenString f _ => f

mutual
/-- What is wrong with a value that is passed over. -/
def skipFlaw : Sketch → Option Flaw
  | .null | .bool _ | .number _ | .string _ => none
  | .array items ending => (skipItems items).or ending
  | .object members ending => (skipMembers members).or ending
  | .absent => some .truncated
  | .stray => some .malformed
  | .brokenWord f => some f
  | .brokenNumeral _ => some .malformed
  | .brokenString _ f => some f

def skipItems : List Sketch → Option Flaw
  | [] => none
  | v :: vs => v.skipFlaw.or (skipItems vs)

def skipMembers : List (Sketch × Sketch) → Option Flaw
  | [] => none
  | (.string _, v) :: ms => v.skipFlaw.or (skipMembers ms)
  | (.absent, _) :: _ => some .truncated
  | (.brokenString _ f, _) :: _ => some f
  | (_, _) :: _ => some .malformed
end

/-- The name of a member. -/
def name : Sketch → Except Flaw String
  | .string s => s
  | .brokenString f _ => .error f
  | .absent => .error .truncated
  | _ => .error .malformed

mutual
/-- Any value at all. `room` is one more than the number of containers that may still be
opened. -/
def any (room : Nat) : Sketch → Except Flaw Json
  | .null => .ok .null
  | .bool b => .ok (.bool b)
  | .number n => n.map .number
  | .string s => s.map .string
  | .array items ending =>
    match room with
    | 0 | 1 => .error .malformed
    | room + 1 => do
      let items ← anyItems room items
      match ending with
      | none => .ok (.array items)
      | some f => .error f
  | .object members ending =>
    match room with
    | 0 | 1 => .error .malformed
    | room + 1 => do
      let fields ← anyMembers room members
      match ending with
      | none => .ok (.sorted fields)
      | some f => .error f
  | .absent => .error .truncated
  | .stray => .error .malformed
  | .brokenWord f | .brokenNumeral f => .error f
  | .brokenString f _ => .error f

def anyItems (room : Nat) : List Sketch → Except Flaw (List Json)
  | [] => .ok []
  | v :: vs => do
    let v ← v.any room
    let vs ← anyItems room vs
    return v :: vs

def anyMembers (room : Nat) : List (Sketch × Sketch) → Except Flaw (List (String × Json))
  | [] => .ok []
  | (k, v) :: ms => do
    let k ← k.name
    let v ← v.any room
    let ms ← anyMembers room ms
    return (k, v) :: ms
end

end Sketch

/-- Reads a value of some type. -/
def Reader (α : Type) := (room : Nat) → Sketch → Reading α

namespace Reader

/-- How many containers a text may nest, plus one. -/
def fullRoom : Nat := 128

def lift {α : Type} (f : Except Flaw α) : Reading α := f.mapError fun flaw => ⟨[], flaw⟩

def map {α β : Type} (f : α → β) (r : Reader α) : Reader β := fun room s => (r room s).map f

/-- Keeps the values that have an image. -/
def filterMap {α β : Type} (f : α → Option β) (r : Reader α) : Reader β := fun room s =>
  match r room s with
  | .ok a => match f a with
    | some b => .ok b
    | none => fail .misfit
  | .error e => .error e

def any : Reader Json := fun room s => lift (s.any room)

def string : Reader String := fun _ s =>
  match s with
  | .string (.ok s) => .ok s
  | s => fail s.unwanted

def bool : Reader Bool := fun _ s =>
  match s with
  | .bool b => .ok b
  | s => fail s.unwanted

/-- An integer, written without fraction and exponent. -/
def integer : Reader Int := fun _ s =>
  match s with
  | .number (.ok (.int n)) => .ok n
  | s => fail s.unwanted

/-- A natural number below a bound. -/
def natBelow (bound : Nat) : Reader Nat :=
  integer.filterMap fun n => if 0 ≤ n ∧ n.toNat < bound then some n.toNat else none

def word8 : Reader Nat := natBelow Word.size8

def word32 : Reader Nat := natBelow Word.size32

def word64 : Reader Nat := natBelow Word.size64

def signed64 : Reader Int :=
  integer.filterMap fun n => if Word.isSigned64 n then some n else none

/-- `null`, or a value. -/
def option {α : Type} (r : Reader α) : Reader (Option α) := fun room s =>
  match s with
  | .null => .ok none
  | s => (r room s).map some

/-- What follows the last part of a container. -/
def closing (place : Nat) : Option Flaw → Reading Unit
  | none => .ok ()
  | some f => .error ⟨[place], f⟩

def items {α : Type} (r : Reader α) (room : Nat) : (i : Nat) → List Sketch → Reading (List α)
  | _, [] => .ok []
  | i, v :: vs => both ((inPart i (r room v)).map List.cons) (items r room (i + 1) vs)

def list {α : Type} (r : Reader α) : Reader (List α) := fun room s =>
  match s with
  | .array vs ending =>
    if room ≤ 1 then fail .malformed
    else both ((items r (room - 1) 0 vs).map fun xs _ => xs) (closing vs.length ending)
  | s => fail s.unwanted

/-- Names of any kind with values of one type, sorted. -/
def members {α : Type} (r : Reader α) (room : Nat) :
    (i : Nat) → List (Sketch × Sketch) → Reading (List (String × α))
  | _, [] => .ok []
  | i, (k, v) :: ms =>
    let key : Reading String := inPart i (lift k.name)
    let value := inPart i (inPart 0 (r room v))
    both (both (key.map fun k v rest => (k, v) :: rest) value) (members r room (i + 1) ms)

def dictionary {α : Type} (r : Reader α) : Reader (List (String × α)) := fun room s =>
  match s with
  | .object ms ending =>
    if room ≤ 1 then fail .malformed
    else
      both ((members r (room - 1) 0 ms).map fun fs _ => sortFields fs) (closing ms.length ending)
  | s => fail s.unwanted

/-- What may follow the only member of an object. -/
def onlyMember (more : List (Sketch × Sketch)) (ending : Option Flaw) : Reading Unit :=
  if more.isEmpty then closing 1 ending else .error ⟨[1], .malformed⟩

/-- What a value that is neither a string nor an object is, where a choice is wanted. -/
def noChoice : Sketch → Flaw
  | .absent => .truncated
  | .brokenString f _ => f
  | _ => .malformed

/-- One of several constants, by name; also written as an object with the name over `null`. -/
def choice {α : Type} (named : String → Option α) : Reader α := fun room s =>
  let pick (s : Sketch) : Reading α := string.filterMap named room s
  match s with
  | .string s => pick (.string s)
  | .object [] none => fail .malformed
  | .object [] (some f) => if room ≤ 1 then fail .malformed else fail f
  | .object ((k, v) :: more) ending =>
    if room ≤ 1 then fail .malformed
    else
      let unit : Reading Unit := match v with
        | .null => .ok ()
        | v => fail v.unwanted
      both (both ((inPart 0 (pick k)).map fun a _ _ => a) (inPart 0 (inPart 0 unit)))
        (onlyMember more ending)
  | s => fail (noChoice s)

/-- One of several records, each under its name in an object of one member. -/
def variant {α : Type} (named : String → Option (Reader α)) : Reader α := fun room s =>
  match s with
  | .string (.ok _) => fail .misfit
  | .string (.error f) => fail f
  | .object [] none => fail .malformed
  | .object [] (some f) => if room ≤ 1 then fail .malformed else fail f
  | .object ((k, v) :: more) ending =>
    if room ≤ 1 then fail .malformed
    else
      match string.filterMap named room k with
      | .error e => inPart 0 (.error e)
      | .ok r => both ((inPart 0 (inPart 0 (r (room - 1) v))).map fun a _ => a) (onlyMember more ending)
  | s => fail (noChoice s)

/-- Reads a whole text. -/
def ofChars {α : Type} (r : Reader α) (cs : List Char) : Except Flaw α :=
  let (s, clean) := Sketch.ofChars cs
  match r fullRoom s with
  | .error e => .error e.flaw
  | .ok a => if clean then .ok a else .error .malformed

def ofText {α : Type} (r : Reader α) (text : String) : Except Flaw α := r.ofChars text.toList

/-- Reads a value that has been read before. -/
def ofJson {α : Type} (r : Reader α) (j : Json) : Option α :=
  (r fullRoom (Sketch.ofJson j)).toOption

end Reader

/-- The value of a text. -/
def ofText (text : String) : Except Flaw Json := Reader.any.ofText text

end FencedSessions.Json

import FencedSessions.Json.Numeral

/-! The sketch of a JSON text: its values in order, up to the first place where the shape of the
text breaks. What only a reader of a value would find wrong (a number out of range, half of a
surrogate pair) stays inside the value, since a reader may skip that value. -/

namespace FencedSessions.Json

/-- Why a text cannot be read. -/
inductive Flaw where
  /-- It ends too early. -/
  | truncated
  /-- It is not JSON. -/
  | malformed
  /-- It is JSON of another shape than wanted. -/
  | misfit
deriving DecidableEq, Repr

inductive Sketch where
  | null
  | bool (b : Bool)
  | number (value : Except Flaw Number)
  | string (value : Except Flaw String)
  /-- The items, and what is wrong after the last one. -/
  | array (items : List Sketch) (ending : Option Flaw)
  /-- The members, keys first, and what is wrong after the last one. -/
  | object (members : List (Sketch × Sketch)) (ending : Option Flaw)
  /-- The text ends before the value. -/
  | absent
  /-- No value starts like this. -/
  | stray
  /-- A word that breaks off or goes wrong. -/
  | brokenWord (flaw : Flaw)
  /-- A numeral that breaks off or goes wrong. Who skips it finds it malformed in any case. -/
  | brokenNumeral (flaw : Flaw)
  /-- A string without an end: the flaw that reading it finds, and the one that skipping it finds. -/
  | brokenString (read skip : Flaw)

namespace Sketch

def isBlank (c : Char) : Bool := c = ' ' || c = '\n' || c = '\t' || c = '\r'

def skipBlanks (cs : List Char) : List Char := cs.dropWhile isBlank

/-- The rest of a word whose first letter is known. -/
def scanWord (value : Sketch) : (word text : List Char) → Sketch × List Char
  | [], cs => (value, cs)
  | _ :: _, [] => (.brokenWord .truncated, [])
  | w :: ws, c :: cs => if w = c then scanWord value ws cs else (.brokenWord .malformed, [])

/-- At least one digit. -/
def scanDigits (cs : List Char) : Except Flaw (List Char × List Char) :=
  match cs with
  | [] => .error .truncated
  | c :: _ =>
    if c.isDigit then .ok (cs.takeWhile Char.isDigit, cs.dropWhile Char.isDigit)
    else .error .malformed

def scanWhole (cs : List Char) : Except Flaw (List Char × List Char) :=
  match cs with
  | '0' :: c :: cs => if c.isDigit then .error .malformed else .ok (['0'], c :: cs)
  | cs => scanDigits cs

def scanFraction (cs : List Char) : Except Flaw (Option (List Char) × List Char) :=
  match cs with
  | '.' :: cs => (scanDigits cs).map fun (ds, r) => (some ds, r)
  | cs => .ok (none, cs)

def scanExponent (cs : List Char) : Except Flaw (Option (Bool × List Char) × List Char) :=
  let digits (minus : Bool) (cs : List Char) :=
    (scanDigits cs).map fun (ds, r) => (some (minus, ds), r)
  match cs with
  | [] => .ok (none, [])
  | c :: r =>
    if c = 'e' || c = 'E' then
      match r with
      | '-' :: r => digits true r
      | '+' :: r => digits false r
      | r => digits false r
    else .ok (none, cs)

def scanParts (cs : List Char) : Except Flaw (Number.Parts × List Char) := do
  let (negative, cs) := match cs with
    | '-' :: r => (true, r)
    | cs => (false, cs)
  let (whole, cs) ← scanWhole cs
  let (fraction, cs) ← scanFraction cs
  let (exponent, cs) ← scanExponent cs
  return (⟨negative, whole, fraction, exponent⟩, cs)

def scanNumber (cs : List Char) : Sketch × List Char :=
  match scanParts cs with
  | .error f => (.brokenNumeral f, [])
  | .ok (parts, r) =>
    match Number.ofParts? parts with
    | some n => (.number (.ok n), r)
    | none => (.number (.error .malformed), r)

/-- What has been read of a string. -/
structure StringState where
  /-- The characters, last one first. -/
  read : List Char := []
  /-- The first half of a surrogate pair, which must come next to its second half. -/
  half : Option Nat := none
  flaw : Option Flaw := none

namespace StringState

def fault (st : StringState) : StringState :=
  { st with flaw := st.flaw.or (some .malformed), half := none }

def push (st : StringState) (c : Char) : StringState :=
  match st.half with
  | none => { st with read := c :: st.read }
  | some _ => st.fault

/-- Adds one sixteen-bit unit. -/
def pushUnit (st : StringState) (n : Nat) : StringState :=
  match st.half with
  | some h =>
    if 0xDC00 ≤ n ∧ n ≤ 0xDFFF then
      { st with
        read := Char.ofNat ((h - 0xD800) * 1024 + (n - 0xDC00) + 0x10000) :: st.read
        half := none }
    else st.fault
  | none =>
    if 0xD800 ≤ n ∧ n ≤ 0xDBFF then { st with half := some n }
    else if 0xDC00 ≤ n ∧ n ≤ 0xDFFF then st.fault
    else { st with read := Char.ofNat n :: st.read }

def finish (st : StringState) : Sketch :=
  let st := if st.half.isSome then st.fault else st
  match st.flaw with
  | none => .string (.ok (String.ofList st.read.reverse))
  | some f => .string (.error f)

def broken (st : StringState) (flaw : Flaw) : Sketch :=
  .brokenString (st.flaw.getD flaw) flaw

end StringState

def plainEscape? (c : Char) : Option Char :=
  if c = '"' then some '"'
  else if c = '\\' then some '\\'
  else if c = '/' then some '/'
  else if c = 'b' then some '\x08'
  else if c = 'f' then some '\x0c'
  else if c = 'n' then some '\n'
  else if c = 'r' then some '\r'
  else if c = 't' then some '\t'
  else none

/-- The flaw of an escape `\u` with fewer than four hexadecimal digits: the text ends if fewer
than four bytes are left. -/
def shortEscape (cs : List Char) : Flaw :=
  if (cs.take 4).foldl (fun n c => n + c.utf8Size) 0 < 4 then .truncated else .malformed

/-- The rest of a string after its opening quote. -/
def scanString (st : StringState) : List Char → Sketch × List Char
  | [] => (st.broken .truncated, [])
  | '"' :: cs => (st.finish, cs)
  | ['\\'] => (st.broken .truncated, [])
  | '\\' :: 'u' :: a :: b :: c :: d :: cs =>
    match hexValue? a, hexValue? b, hexValue? c, hexValue? d with
    | some a, some b, some c, some d =>
      scanString (st.pushUnit (((a * 16 + b) * 16 + c) * 16 + d)) cs
    | _, _, _, _ => (st.broken .malformed, [])
  | '\\' :: 'u' :: cs => (st.broken (shortEscape cs), [])
  | '\\' :: e :: cs =>
    match plainEscape? e with
    | some c => scanString (st.push c) cs
    | none => (st.broken .malformed, [])
  | c :: cs =>
    if c.toNat < 32 then (st.broken .malformed, [])
    else scanString (st.push c) cs
where
  hexValue? (c : Char) : Option Nat := Text.hexValue? c

mutual
/-- The value at the start of a text, and the text after it. `fuel` bounds the number of values
that follow or enclose one another; the length of the text is enough. -/
def scanValue : (fuel : Nat) → List Char → Sketch × List Char
  | 0, _ => (.absent, [])
  | fuel + 1, cs =>
    match skipBlanks cs with
    | [] => (.absent, [])
    | 'n' :: cs => scanWord .null ['u', 'l', 'l'] cs
    | 't' :: cs => scanWord (.bool true) ['r', 'u', 'e'] cs
    | 'f' :: cs => scanWord (.bool false) ['a', 'l', 's', 'e'] cs
    | '"' :: cs => scanString {} cs
    | '[' :: cs =>
      let (items, ending, cs) := scanItems fuel true cs
      (.array items ending, cs)
    | '{' :: cs =>
      let (members, ending, cs) := scanMembers fuel true cs
      (.object members ending, cs)
    | c :: cs =>
      if c = '-' || c.isDigit then scanNumber (c :: cs) else (.stray, [])

/-- The items of an array, after the opening bracket or after an item. -/
def scanItems : (fuel : Nat) → (first : Bool) → List Char →
    List Sketch × Option Flaw × List Char
  | 0, _, _ => ([], some .truncated, [])
  | fuel + 1, first, cs =>
    match skipBlanks cs with
    | [] => ([], some .truncated, [])
    | c :: rest =>
      if c = ']' then ([], none, rest)
      else if first then
        let (v, cs) := scanValue fuel (c :: rest)
        let (vs, ending, cs) := scanItems fuel false cs
        (v :: vs, ending, cs)
      else if c = ',' then
        if (skipBlanks rest).head? = some ']' then ([], some .malformed, [])
        else
          let (v, cs) := scanValue fuel rest
          let (vs, ending, cs) := scanItems fuel false cs
          (v :: vs, ending, cs)
      else ([], some .malformed, [])

/-- The members of an object, after the opening brace or after a member. -/
def scanMembers : (fuel : Nat) → (first : Bool) → List Char →
    List (Sketch × Sketch) × Option Flaw × List Char
  | 0, _, _ => ([], some .truncated, [])
  | fuel + 1, first, cs =>
    match skipBlanks cs with
    | [] => ([], some .truncated, [])
    | c :: rest =>
      if c = '}' then ([], none, rest)
      else if first then
        let (m, cs) := scanMember fuel (c :: rest)
        let (ms, ending, cs) := scanMembers fuel false cs
        (m :: ms, ending, cs)
      else if c = ',' then
        if (skipBlanks rest).head? = some '}' then ([], some .malformed, [])
        else
          let (m, cs) := scanMember fuel rest
          let (ms, ending, cs) := scanMembers fuel false cs
          (m :: ms, ending, cs)
      else ([], some .malformed, [])

/-- One member: a key, a colon and a value. -/
def scanMember : (fuel : Nat) → List Char → (Sketch × Sketch) × List Char
  | 0, _ => ((.absent, .absent), [])
  | fuel + 1, cs =>
    let (k, cs) := scanValue fuel cs
    match skipBlanks cs with
    | [] => ((k, .absent), [])
    | c :: cs =>
      if c = ':' then
        let (v, cs) := scanValue fuel cs
        ((k, v), cs)
      else ((k, .stray), [])
end

/-- The sketch of a whole text, and whether nothing but blanks follows it. -/
def ofChars (cs : List Char) : Sketch × Bool :=
  let (v, rest) := scanValue (3 * cs.length + 3) cs
  (v, (skipBlanks rest).isEmpty)

mutual
/-- The sketch of a value. -/
def ofJson : Json → Sketch
  | .null => .null
  | .bool b => .bool b
  | .number n => .number (.ok n)
  | .string s => .string (.ok s)
  | .array items => .array (ofItems items) none
  | .object fields => .object (ofFields fields) none

def ofItems : List Json → List Sketch
  | [] => []
  | v :: vs => ofJson v :: ofItems vs

def ofFields : List (String × Json) → List (Sketch × Sketch)
  | [] => []
  | (k, v) :: fields => (.string (.ok k), ofJson v) :: ofFields fields
end

end Sketch

end FencedSessions.Json

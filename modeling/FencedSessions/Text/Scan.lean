/-! Scans take a value off the front of a list of characters. A scan that fails takes nothing, so
another one can be tried in its place. -/

namespace FencedSessions

/-- Takes a value off the front, or fails. -/
abbrev Scan (α : Type) := StateT (List Char) Option α

namespace Scan

/-- A character of a class. -/
def one (p : Char → Bool) : Scan Char := fun cs =>
  match cs with
  | [] => none
  | c :: cs => if p c then some (c, cs) else none

/-- This character. -/
def char (c : Char) : Scan Unit := fun cs =>
  match cs with
  | [] => none
  | d :: cs => if d = c then some ((), cs) else none

/-- These characters. -/
def word (w : List Char) : Scan Unit := fun cs => (w.isPrefixOf? cs).map fun rest => ((), rest)

/-- The characters of a class up to the first other one. -/
def span (p : Char → Bool) : Scan (List Char) := fun cs => some (cs.takeWhile p, cs.dropWhile p)

/-- The end of the text. -/
def done : Scan Unit := fun cs => if cs.isEmpty then some ((), []) else none

/-- A value, or nothing. -/
def maybe {α : Type} (p : Scan α) : Scan (Option α) := fun cs =>
  match p cs with
  | some (a, rest) => some (some a, rest)
  | none => some (none, cs)

/-- Values one after another, as many as there are. One that takes nothing ends them. -/
def many {α : Type} (p : Scan α) (cs : List Char) : Option (List α × List Char) :=
  match p cs with
  | none => some ([], cs)
  | some (a, rest) =>
    if rest.length < cs.length then (many p rest).map fun (as, rest) => (a :: as, rest)
    else some ([], cs)
termination_by cs.length

/-- One value at least, with separators between them. -/
def separated {α : Type} (p : Scan α) (separator : Scan Unit) : Scan (List α) := do
  let a ← p
  let as ← many (do separator; p)
  return a :: as

end Scan

end FencedSessions

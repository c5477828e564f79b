import FencedSessions.Json.Reader

/-! Metadata on the command line: entries `key=value`, where the value is JSON, or a plain string if
it is not. -/

namespace FencedSessions.Cli

/-- The parts before and after the first equals sign. -/
def splitEntry? (entry : String) : Option (String × String) :=
  let cs := entry.toList
  match cs.dropWhile (· ≠ '=') with
  | [] => none
  | _ :: value => some (String.ofList (cs.takeWhile (· ≠ '=')), String.ofList value)

def entryValue (text : String) : Json :=
  match Json.ofText text with
  | .ok v => v
  | .error _ => .string text

/-- An entry without an equals sign. -/
structure BadEntry where
  entry : String
deriving DecidableEq, Repr

def BadEntry.message (e : BadEntry) : String := "Metadata must be key=value, got '" ++ e.entry ++ "'"

/-- The metadata that the entries name. Of entries with one key the last one counts. -/
def parseMetadata (entries : List String) : Except BadEntry (List (String × Json)) :=
  entries.foldlM (fun fields entry =>
    match splitEntry? entry with
    | none => .error ⟨entry⟩
    | some (k, v) => .ok (Json.insertField k (entryValue v) fields)) []

end FencedSessions.Cli

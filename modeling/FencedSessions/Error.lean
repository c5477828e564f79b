import FencedSessions.Fence
import FencedSessions.SessionId

/-! The failures of the library. Whether a caller may try again follows from the kind of a
failure, never from its text. -/

namespace FencedSessions

inductive Error where
  /-- The queue did not grant the resource in time. -/
  | contentionTimeout (resource : String) (waitedMs : Nat)
  /-- The fence is not the one of a live lease. -/
  | leaseLost (resource : String) (fence : Fence)
  /-- A store could not be reached. -/
  | unavailable (reason : String)
  /-- The breaker rejects calls for now. -/
  | circuitOpen (retryInMs : Nat)
  /-- The stored version is not the one that was loaded. -/
  | versionConflict (id : SessionId) (expected actual : Nat)
  /-- A younger fence has been accepted already. -/
  | staleFence (id : SessionId) (presented accepted : Fence)
  | notFound (id : SessionId)
  | alreadyExists (id : SessionId)
  /-- The session may not change in this way. -/
  | invalidTransition (reason : String)
  | config (reason : String)
  /-- A stored text is not the JSON of a record. -/
  | json (reason : String)
  /-- The operating system failed a call. -/
  | system (reason : String)
deriving DecidableEq, Repr

namespace Error

def message : Error → String
  | .contentionTimeout r ms => "Contention timeout on '" ++ r ++ "' after " ++ Text.numeral ms ++ "ms"
  | .leaseLost r f => "Lease lost on '" ++ r ++ "' (fence " ++ f.text ++ ")"
  | .unavailable m => "Backend unavailable: " ++ m
  | .circuitOpen ms => "Circuit open, retry in " ++ Text.numeral ms ++ "ms"
  | .versionConflict id e a =>
    "Version conflict on session " ++ id.text ++ ": expected " ++ Text.numeral e ++ ", found " ++
      Text.numeral a
  | .staleFence id p a =>
    "Stale fence on session " ++ id.text ++ ": presented " ++ p.text ++ ", accepted " ++ a.text
  | .notFound id => "Session not found: " ++ id.text
  | .alreadyExists id => "Session already exists: " ++ id.text
  | .invalidTransition m => "Invalid transition: " ++ m
  | .config m => "Config error: " ++ m
  | .json m => "JSON error: " ++ m
  | .system m => "IO error: " ++ m

/-- Nothing was written, and the same request may succeed later. -/
def retryable : Error → Bool
  | .contentionTimeout .. | .leaseLost .. | .versionConflict .. | .staleFence .. => true
  | _ => false

/-- A store failed, and waiting may help. -/
def transient : Error → Bool
  | .unavailable _ | .circuitOpen _ | .system _ => true
  | _ => false

/-- The error for a stored text with a flaw. -/
def ofFlaw : Json.Flaw → Error
  | .truncated => .json "the text ends too early"
  | .malformed => .json "the text is malformed"
  | .misfit => .json "the text is not of this record"

end Error

/-- Why a call has no answer: it failed, or it computed an instant beyond the time line, which ends
the task that made it. -/
inductive Stop where
  | error (e : Error)
  | overflow
deriving DecidableEq, Repr

end FencedSessions

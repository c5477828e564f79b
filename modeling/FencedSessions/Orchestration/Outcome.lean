import FencedSessions.Error
import FencedSessions.Session.Status
import FencedSessions.Json.Record

/-! The outcome of a step, as its caller sees it. -/

namespace FencedSessions

open Json (Reader Record)

inductive Outcome where
  /-- The change was stored: the status and the version after it. -/
  | success (status : Status) (version : Nat)
  /-- The lifecycle refused the change. -/
  | invalidTransition (reason : String)
  /-- Another holder was faster, or the lease or the version moved. -/
  | conflict (retryable : Bool) (reason : String)
  | notFound
  /-- A store failed. -/
  | transientError (reason : String)
deriving DecidableEq, Repr

namespace Outcome

def isSuccess : Outcome → Bool
  | .success .. => true
  | _ => false

/-- Whether the same request may succeed when it is made again. -/
def retryable : Outcome → Bool
  | .conflict retryable _ => retryable
  | .transientError _ => true
  | _ => false

def status? : Outcome → Option Status
  | .success status _ => some status
  | _ => none

def kind : Outcome → String
  | .success .. => "success"
  | .invalidTransition _ => "invalid_transition"
  | .conflict .. => "conflict"
  | .notFound => "not_found"
  | .transientError _ => "transient_error"

def ofError (e : Error) : Outcome :=
  match e with
  | .contentionTimeout .. | .leaseLost .. | .versionConflict .. | .staleFence .. =>
    .conflict true e.message
  | .alreadyExists _ => .conflict false e.message
  | .notFound _ => .notFound
  | .invalidTransition reason => .invalidTransition reason
  | .unavailable _ | .circuitOpen _ | .system _ | .json _ | .config _ =>
    .transientError e.message

def toJson (o : Outcome) : Json :=
  .object (("outcome", .string o.kind) :: match o with
    | .success status version => [("status", status.toJson), ("version", .nat version)]
    | .invalidTransition reason => [("reason", .string reason)]
    | .conflict retryable reason => [("retryable", .bool retryable), ("reason", .string reason)]
    | .notFound => []
    | .transientError reason => [("reason", .string reason)])

/-- The fields that an outcome of each kind has. -/
def record? (kind : String) : Option (Record Outcome) :=
  if kind = "success" then
    some (Record.build Outcome.success
      |>.andField (Record.field "status" Status.reader)
      |>.andField (Record.field "version" Reader.word64))
  else if kind = "invalid_transition" then
    some (Record.build Outcome.invalidTransition
      |>.andField (Record.field "reason" Reader.string))
  else if kind = "conflict" then
    some (Record.build Outcome.conflict
      |>.andField (Record.field "retryable" Reader.bool)
      |>.andField (Record.field "reason" Reader.string))
  else if kind = "not_found" then some (Record.build .notFound)
  else if kind = "transient_error" then
    some (Record.build Outcome.transientError
      |>.andField (Record.field "reason" Reader.string))
  else none

def reader : Reader Outcome := Reader.tagged "outcome" record?

end Outcome

end FencedSessions

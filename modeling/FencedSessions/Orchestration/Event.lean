import FencedSessions.SessionId
import FencedSessions.Session.Status
import FencedSessions.Time.Codec

/-! Events that the service emits after each step. -/

namespace FencedSessions

open Json (Reader Record)

inductive Event where
  | created (id : SessionId) (time : Instant)
  | applied (id : SessionId) (event : SessionEvent) (status : Status) (version : Nat)
    (time : Instant)
  | checkpointed (id : SessionId) (sequence version : Nat) (time : Instant)
  /-- The lifecycle refused a change. -/
  | rejected (id : SessionId) (reason : String) (time : Instant)
  | conflict (id : SessionId) (reason : String) (time : Instant)
  | notFound (id : SessionId) (time : Instant)
  | transient (id : SessionId) (reason : String) (time : Instant)
  /-- An abandoned session was orphaned, after so many quiet milliseconds. -/
  | rehydrated (id : SessionId) (previous : Status) (quietMs : Int) (time : Instant)
deriving DecidableEq, Repr

namespace Event

def kind : Event → String
  | .created .. => "Created"
  | .applied .. => "Applied"
  | .checkpointed .. => "Checkpointed"
  | .rejected .. => "Rejected"
  | .conflict .. => "Conflict"
  | .notFound .. => "NotFound"
  | .transient .. => "Transient"
  | .rehydrated .. => "Rehydrated"

def fields : Event → List (String × Json)
  | .created id time => [("session_id", id.toJson), ("timestamp", time.toJson)]
  | .applied id event status version time =>
    [("session_id", id.toJson), ("event", event.toJson), ("status", status.toJson),
      ("version", .nat version), ("timestamp", time.toJson)]
  | .checkpointed id sequence version time =>
    [("session_id", id.toJson), ("sequence_number", .nat sequence), ("version", .nat version),
      ("timestamp", time.toJson)]
  | .rejected id reason time | .conflict id reason time | .transient id reason time =>
    [("session_id", id.toJson), ("reason", .string reason), ("timestamp", time.toJson)]
  | .notFound id time => [("session_id", id.toJson), ("timestamp", time.toJson)]
  | .rehydrated id previous quietMs time =>
    [("session_id", id.toJson), ("previous", previous.toJson), ("quiet_ms", .int quietMs),
      ("timestamp", time.toJson)]

def toJson (e : Event) : Json := .object [(e.kind, .object e.fields)]

def idField : Record SessionId := Record.field "session_id" SessionId.reader

def timeField : Record Instant := Record.field "timestamp" Instant.reader

def reasonField : Record String := Record.field "reason" Reader.string

/-- The fields that an event of each kind has. -/
def record? (kind : String) : Option (Record Event) :=
  let withReason (f : SessionId → String → Instant → Event) : Record Event :=
    Record.build f |>.andField idField |>.andField reasonField |>.andField timeField
  if kind = "Created" then
    some (Record.build Event.created |>.andField idField |>.andField timeField)
  else if kind = "Applied" then
    some (Record.build Event.applied |>.andField idField
      |>.andField (Record.field "event" SessionEvent.reader)
      |>.andField (Record.field "status" Status.reader)
      |>.andField (Record.field "version" Reader.word64) |>.andField timeField)
  else if kind = "Checkpointed" then
    some (Record.build Event.checkpointed |>.andField idField
      |>.andField (Record.field "sequence_number" Reader.word64)
      |>.andField (Record.field "version" Reader.word64) |>.andField timeField)
  else if kind = "Rejected" then some (withReason .rejected)
  else if kind = "Conflict" then some (withReason .conflict)
  else if kind = "NotFound" then
    some (Record.build Event.notFound |>.andField idField |>.andField timeField)
  else if kind = "Transient" then some (withReason .transient)
  else if kind = "Rehydrated" then
    some (Record.build Event.rehydrated |>.andField idField
      |>.andField (Record.field "previous" Status.reader)
      |>.andField (Record.field "quiet_ms" Reader.signed64) |>.andField timeField)
  else none

def reader : Reader Event := Reader.variant fun kind => (record? kind).map Record.reader

end Event

end FencedSessions

import FencedSessions.Session.Basic
import FencedSessions.Time.Codec

/-! The JSON forms of checkpoints, transitions and sessions. -/

namespace FencedSessions

open Json (Reader Record)

namespace Checkpoint

def toJson (c : Checkpoint) : Json :=
  .object [("sequence_number", .nat c.sequence), ("payload", c.payload),
    ("created_at", c.createdAt.toJson), ("reason", .string c.reason)]

def record : Record Checkpoint :=
  Record.build Checkpoint.mk
    |>.andField (Record.field "sequence_number" Reader.word64)
    |>.andField (Record.field "payload" Reader.any)
    |>.andField (Record.field "created_at" Instant.reader)
    |>.andField (Record.field "reason" Reader.string)

def reader : Reader Checkpoint := record.reader

end Checkpoint

namespace Transition

def toJson (t : Transition) : Json :=
  .object [("from", t.source.toJson), ("to", t.target.toJson), ("at", t.time.toJson),
    ("forced", .bool t.forced)]

def record : Record Transition :=
  Record.build Transition.mk
    |>.andField (Record.field "from" Status.reader)
    |>.andField (Record.field "to" Status.reader)
    |>.andField (Record.field "at" Instant.reader)
    |>.andField (Record.fieldOr "forced" Reader.bool false)

def reader : Reader Transition := record.reader

end Transition

namespace Session

def toJson (s : Session) : Json :=
  .object [("id", s.id.toJson), ("status", s.status.toJson), ("priority", .nat s.priority),
    ("checkpoints", .array (s.checkpoints.map Checkpoint.toJson)),
    ("history", .array (s.history.map Transition.toJson)), ("version", .nat s.version),
    ("created_at", s.createdAt.toJson), ("updated_at", s.updatedAt.toJson),
    ("metadata", .object s.metadata)]

/-- The fields of a session. Metadata may be absent. -/
def fields : Record Session :=
  Record.build Session.mk
    |>.andField (Record.field "id" SessionId.reader)
    |>.andField (Record.field "status" Status.reader)
    |>.andField (Record.field "priority" Reader.word8)
    |>.andField (Record.field "checkpoints" Checkpoint.reader.list)
    |>.andField (Record.field "history" Transition.reader.list)
    |>.andField (Record.field "version" Reader.word64)
    |>.andField (Record.field "created_at" Instant.reader)
    |>.andField (Record.field "updated_at" Instant.reader)
    |>.andField (Record.fieldOr "metadata" Reader.any.dictionary [])

def reader : Reader Session := fields.reader

end Session

end FencedSessions

import FencedSessions.Json.Record
import FencedSessions.Session.Health

/-! Settings of the orchestration and of health scores. -/

namespace FencedSessions

open Json (Reader Record)

structure OrchestratorSettings where
  /-- The name in the leases that the service takes. -/
  holder : String
  /-- How long an active session may be quiet. -/
  stalenessMs : Nat
deriving DecidableEq, Repr

namespace OrchestratorSettings

def toJson (c : OrchestratorSettings) : Json :=
  .object [("holder_id", .string c.holder), ("staleness_threshold_ms", .nat c.stalenessMs)]

/-- Every field may be absent; the holder is `holder` then. -/
def record (holder : String) : Record OrchestratorSettings :=
  Record.build OrchestratorSettings.mk
    |>.andField (Record.fieldOr "holder_id" Reader.string holder)
    |>.andField (Record.fieldOr "staleness_threshold_ms" Reader.word64 300000)

def reader (holder : String) : Reader OrchestratorSettings := (record holder).reader

/-- The quiet time in nanoseconds beyond which a session counts as abandoned. -/
def staleness (c : OrchestratorSettings) : Int := (Span.ofMillis c.stalenessMs).offset

end OrchestratorSettings

namespace HealthSettings

def toJson (c : HealthSettings) : Json :=
  .object [("expected_checkpoint_interval_ms", .nat c.expectedIntervalMs),
    ("history_window", .nat c.window)]

/-- Every field may be absent. -/
def record : Record HealthSettings :=
  Record.build HealthSettings.mk
    |>.andField (Record.fieldOr "expected_checkpoint_interval_ms" Reader.word64 60000)
    |>.andField (Record.fieldOr "history_window" Reader.word64 10)

def reader : Reader HealthSettings := record.reader

end HealthSettings

end FencedSessions

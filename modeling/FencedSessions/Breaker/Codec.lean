import FencedSessions.Breaker.Basic
import FencedSessions.Json.Record

/-! The JSON forms of breaker settings and circuit states. -/

namespace FencedSessions

open Json (Reader Record)

namespace BreakerSettings

def toJson (c : BreakerSettings) : Json :=
  .object [("failure_threshold", .nat c.threshold), ("cooldown_ms", .nat c.cooldownMs)]

/-- Every field may be absent. -/
def record : Record BreakerSettings :=
  Record.build BreakerSettings.mk
    |>.andField (Record.fieldOr "failure_threshold" Reader.word32 5)
    |>.andField (Record.fieldOr "cooldown_ms" Reader.word64 10000)

def reader : Reader BreakerSettings := record.reader

end BreakerSettings

namespace CircuitState

def text : CircuitState → String
  | .closed => "closed"
  | .opened => "open"
  | .halfOpen => "half_open"

def ofText? (s : String) : Option CircuitState :=
  [CircuitState.closed, .opened, .halfOpen].find? fun c => c.text = s

def toJson (c : CircuitState) : Json := .string c.text

def reader : Reader CircuitState := Reader.choice ofText?

end CircuitState

end FencedSessions

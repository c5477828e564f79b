import FencedSessions.Breaker.Codec
import FencedSessions.Lock.Settings
import FencedSessions.Orchestration.Retry
import FencedSessions.Orchestration.Settings
import FencedSessions.Toml.Document

/-! The configuration file: a TOML document with a section for each group of settings. Every section
and every field may be absent, and unknown ones are passed over. -/

namespace FencedSessions.Cli

open Json (Reader Record)

structure Configuration where
  /-- The directory that holds all stored data. -/
  dataDirectory : String
  lock : LockSettings
  breaker : BreakerSettings
  orchestrator : OrchestratorSettings
  health : HealthSettings
  retry : RetryPolicy
deriving DecidableEq, Repr

namespace Configuration

def defaultDataDirectory : String := "./data"

/-- The configuration without a file. `holder` names this process in its leases. -/
def default (holder : String) : Configuration :=
  ⟨defaultDataDirectory, {}, {}, ⟨holder, 300000⟩, {}, {}⟩

def record (holder : String) : Record Configuration :=
  let absent := default holder
  Record.build Configuration.mk
    |>.andField (Record.fieldOr "data_dir" Reader.string absent.dataDirectory)
    |>.andField (Record.fieldOr "lock" LockSettings.record.openReader absent.lock)
    |>.andField (Record.fieldOr "breaker" BreakerSettings.record.openReader absent.breaker)
    |>.andField (Record.fieldOr "orchestrator" (OrchestratorSettings.record holder).openReader
      absent.orchestrator)
    |>.andField (Record.fieldOr "health" HealthSettings.record.openReader absent.health)
    |>.andField (Record.fieldOr "retry" RetryPolicy.record.openReader absent.retry)

/-- The configuration that a TOML text describes. -/
def ofText? (holder text : String) : Option Configuration :=
  (Toml.ofText? text).bind fun v => (record holder).reader.ofJson v.toJson

/-- The path of a name in a directory. -/
def join (directory name : String) : String :=
  if directory.isEmpty || directory.endsWith "/" then directory ++ name
  else directory ++ "/" ++ name

def sessionsDirectory (c : Configuration) : String := join c.dataDirectory "sessions"

def leasesDirectory (c : Configuration) : String := join c.dataDirectory "leases"

end Configuration

end FencedSessions.Cli

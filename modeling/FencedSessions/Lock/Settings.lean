import FencedSessions.Json.Record
import FencedSessions.Time.Instant

/-! Timing settings of the fair lock. -/

namespace FencedSessions

open Json (Reader Record)

structure LockSettings where
  pollIntervalMs : Nat := 20
  leaseDurationMs : Nat := 30000
  acquireTimeoutMs : Nat := 5000
deriving DecidableEq, Repr

namespace LockSettings

/-- How often a waiter looks at the store, a millisecond at least. -/
def pollInterval (c : LockSettings) : Span := .ofMillis (max c.pollIntervalMs 1)

def leaseDuration (c : LockSettings) : Span := .ofMillis c.leaseDurationMs

def acquireTimeout (c : LockSettings) : Span := .ofMillis c.acquireTimeoutMs

def toJson (c : LockSettings) : Json :=
  .object [("poll_interval_ms", .nat c.pollIntervalMs),
    ("lease_duration_ms", .nat c.leaseDurationMs),
    ("acquire_timeout_ms", .nat c.acquireTimeoutMs)]

/-- Every field may be absent. -/
def record : Record LockSettings :=
  Record.build LockSettings.mk
    |>.andField (Record.fieldOr "poll_interval_ms" Reader.word64 20)
    |>.andField (Record.fieldOr "lease_duration_ms" Reader.word64 30000)
    |>.andField (Record.fieldOr "acquire_timeout_ms" Reader.word64 5000)

def reader : Reader LockSettings := record.reader

end LockSettings

end FencedSessions

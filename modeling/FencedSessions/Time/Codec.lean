import FencedSessions.Time.Rfc3339
import FencedSessions.Json.Record

/-! Instants as JSON strings. -/

namespace FencedSessions.Instant

def toJson (t : Instant) : Json := .string t.text

def reader : Json.Reader Instant := Json.Reader.string.filterMap ofText?

end FencedSessions.Instant

import FencedSessions.Lease.Basic
import FencedSessions.Time.Codec

/-! The JSON forms of leases, tickets and key states. -/

namespace FencedSessions

open Json (Reader Record)

namespace Lease

def toJson (l : Lease) : Json :=
  .object [("resource_key", .string l.resource), ("holder_id", .string l.holder),
    ("fence_token", l.fence.toJson), ("expires_at", l.expiresAt.toJson),
    ("queue_position", .nat l.position)]

def record : Record Lease :=
  Record.build Lease.mk
    |>.andField (Record.field "resource_key" Reader.string)
    |>.andField (Record.field "holder_id" Reader.string)
    |>.andField (Record.field "fence_token" Fence.reader)
    |>.andField (Record.field "expires_at" Instant.reader)
    |>.andField (Record.field "queue_position" Reader.word64)

def reader : Reader Lease := record.reader

end Lease

namespace Ticket

def toJson (t : Ticket) : Json :=
  .object [("id", .nat t.number), ("holder_id", .string t.holder),
    ("deadline", t.deadline.toJson), ("position", .nat t.position)]

def record : Record Ticket :=
  Record.build Ticket.mk
    |>.andField (Record.field "id" Reader.word64)
    |>.andField (Record.field "holder_id" Reader.string)
    |>.andField (Record.field "deadline" Instant.reader)
    |>.andField (Record.field "position" Reader.word64)

def reader : Reader Ticket := record.reader

end Ticket

namespace KeyState

def toJson (k : KeyState) : Json :=
  .object [("lease", .ofOption Lease.toJson k.lease), ("last_fence", k.lastFence.toJson),
    ("tickets", .array (k.tickets.map Ticket.toJson)), ("next_ticket", .nat k.lastTicket)]

def record : Record KeyState :=
  Record.build KeyState.mk
    |>.andField (Record.optional "lease" Lease.reader)
    |>.andField (Record.field "last_fence" Fence.reader)
    |>.andField (Record.field "tickets" Ticket.reader.list)
    |>.andField (Record.field "next_ticket" Reader.word64)

def reader : Reader KeyState := record.reader

end KeyState

end FencedSessions

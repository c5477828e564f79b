import FencedSessions.Error
import FencedSessions.Time.Instant

/-! Leases and tickets, and the operations of a lease store on one key. -/

namespace FencedSessions

/-- A grant of exclusive access to a resource for a limited time. -/
structure Lease where
  resource : String
  holder : String
  fence : Fence
  expiresAt : Instant
  /-- How many tickets stood before the holder's when it joined the queue. -/
  position : Nat
deriving DecidableEq, Repr

namespace Lease

/-- Whether the lease is in force. It is void from its expiry on. -/
def liveAt (l : Lease) (now : Instant) : Bool := now < l.expiresAt

end Lease

/-- A place in the queue of a resource. -/
structure Ticket where
  /-- Tickets of a key are numbered from one, in the order of their issue. There is no last number. -/
  number : Nat
  holder : String
  /-- From this instant on the queue drops the ticket. -/
  deadline : Instant
  /-- How many tickets stood before it when it was issued. -/
  position : Nat
deriving DecidableEq, Repr

/-- What can be asked of a lease store about one key. -/
inductive LeaseOp where
  /-- Grant a lease if the fence of the live one is as expected; `none` expects no live lease. -/
  | grant (expected : Option Fence) (holder : String) (position : Nat) (ttl : Span)
  /-- Set the expiry of the live lease, if its fence matches. -/
  | extend (fence : Fence) (ttl : Span)
  /-- Delete the lease, if its fence matches. -/
  | delete (fence : Fence)
  /-- The live lease. -/
  | get
  /-- Append a ticket to the queue. -/
  | enqueue (holder : String) (deadline : Instant)
  /-- The number of tickets before a ticket, if it is queued. -/
  | position (ticket : Nat)
  /-- Remove a ticket. -/
  | remove (ticket : Nat)
  /-- The number of queued tickets. -/
  | queueLength
deriving DecidableEq, Repr

namespace LeaseOp

abbrev Answer : LeaseOp → Type
  | .grant .. => Option Lease
  | .extend .. => Option Lease
  | .delete _ => Bool
  | .get => Option Lease
  | .enqueue .. => Ticket
  | .position _ => Option Nat
  | .remove _ => Bool
  | .queueLength => Nat

end LeaseOp

/-- What a store remembers of one key. It stays after a release, so that fences keep growing. -/
structure KeyState where
  lease : Option Lease := none
  lastFence : Fence := .zero
  /-- In the order of their issue. -/
  tickets : List Ticket := []
  lastTicket : Nat := 0
deriving DecidableEq, Repr

namespace KeyState

def liveLease (k : KeyState) (now : Instant) : Option Lease := k.lease.filter (·.liveAt now)

/-- Drops the tickets whose deadline has come. -/
def prune (k : KeyState) (now : Instant) : KeyState :=
  { k with tickets := k.tickets.filter fun t => now < t.deadline }

/-- Grants a lease under a new fence. The fence is used up even if the expiry lies beyond the time
line. -/
def grant (k : KeyState) (key : String) (now : Instant) (expected : Option Fence)
    (holder : String) (position : Nat) (ttl : Span) : Except Stop (Option Lease) × KeyState :=
  if (k.liveLease now).map Lease.fence ≠ expected then (.ok none, k)
  else
    let fence := k.lastFence.next
    match now.after? ttl with
    | none => (.error .overflow, { k with lastFence := fence })
    | some expiry =>
      let lease : Lease := ⟨key, holder, fence, expiry, position⟩
      (.ok (some lease), { k with lease := some lease, lastFence := fence })

def extend (k : KeyState) (now : Instant) (fence : Fence) (ttl : Span) :
    Except Stop (Option Lease) × KeyState :=
  match k.lease with
  | some l =>
    if l.fence = fence ∧ l.liveAt now then
      match now.after? ttl with
      | none => (.error .overflow, k)
      | some expiry =>
        let l := { l with expiresAt := expiry }
        (.ok (some l), { k with lease := some l })
    else (.ok none, k)
  | none => (.ok none, k)

/-- Deletes the lease with a fence. The answer is whether it was still live. -/
def delete (k : KeyState) (now : Instant) (fence : Fence) : Bool × KeyState :=
  match k.lease with
  | some l => if l.fence = fence then (l.liveAt now, { k with lease := none }) else (false, k)
  | none => (false, k)

def enqueue (k : KeyState) (now : Instant) (holder : String) (deadline : Instant) :
    Ticket × KeyState :=
  let k := k.prune now
  let t : Ticket := ⟨k.lastTicket + 1, holder, deadline, k.tickets.length⟩
  (t, { k with tickets := k.tickets ++ [t], lastTicket := k.lastTicket + 1 })

def position (k : KeyState) (now : Instant) (ticket : Nat) : Option Nat × KeyState :=
  let k := k.prune now
  (k.tickets.findIdx? (·.number = ticket), k)

def remove (k : KeyState) (ticket : Nat) : Bool × KeyState :=
  (k.tickets.any (·.number = ticket),
    { k with tickets := k.tickets.filter (·.number ≠ ticket) })

def queueLength (k : KeyState) (now : Instant) : Nat × KeyState :=
  let k := k.prune now
  (k.tickets.length, k)

/-- Carries out one operation on the state of `key`. -/
def run (key : String) (now : Instant) (op : LeaseOp) (k : KeyState) :
    Except Stop op.Answer × KeyState :=
  match op with
  | .grant expected holder position ttl => k.grant key now expected holder position ttl
  | .extend fence ttl => k.extend now fence ttl
  | .delete fence => let (b, k) := k.delete now fence; (.ok b, k)
  | .get => (.ok (k.liveLease now), k)
  | .enqueue holder deadline => let (t, k) := k.enqueue now holder deadline; (.ok t, k)
  | .position ticket => let (p, k) := k.position now ticket; (.ok p, k)
  | .remove ticket => let (b, k) := k.remove ticket; (.ok b, k)
  | .queueLength => let (n, k) := k.queueLength now; (.ok n, k)

end KeyState

end FencedSessions

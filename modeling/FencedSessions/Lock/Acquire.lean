import FencedSessions.Lock.Basic
import FencedSessions.Word

/-! Acquiring a resource through the fair lock, in steps of one store call each. The caller takes a
ticket and waits until the ticket is at the head of the queue and the resource is free. It looks at
its start, then whenever it is woken or its poll interval has passed, and gives up when its timeout
has passed on the timer or on the clock. -/

namespace FencedSessions

structure AcquireRequest where
  node : Nat
  key : String
  holder : String
  timeout : Span
  ttl : Span
deriving DecidableEq, Repr

/-- When a caller gives up. -/
structure Deadlines where
  /-- When the caller started, in milliseconds on the timer. -/
  started : Nat
  /-- The end of its timeout, in nanoseconds on the timer. -/
  giveUp : Nat
  /-- The end of its timeout on the clock. -/
  clockGiveUp : Instant
  /-- The deadline of its tickets, a poll interval after that. -/
  ticketDeadline : Instant
deriving DecidableEq, Repr

/-- A caller with a ticket. -/
structure Waiter where
  deadlines : Deadlines
  ticket : Ticket
  /-- Whether it was woken since it last began to look. -/
  woken : Bool
deriving DecidableEq, Repr

inductive AcquirePhase where
  /-- About to set its deadlines. -/
  | starting
  /-- About to take a ticket. -/
  | joining (d : Deadlines)
  /-- About to ask for the place of its ticket. -/
  | checking (w : Waiter)
  /-- At the head of the queue, about to ask for the grant. -/
  | granting (w : Waiter)
  /-- Its ticket is gone, about to take another one. -/
  | rejoining (w : Waiter)
  /-- Waiting to be woken, until a millisecond on the timer. -/
  | waiting (w : Waiter) (due : Nat)
  /-- Granted, about to remove its ticket. -/
  | taking (w : Waiter) (lease : Lease)
  /-- Out of time, about to remove its ticket. -/
  | leaving (w : Waiter)
  | finished (result : Except Stop Lease)

namespace AcquirePhase

/-- The stand-in for a timeout whose end the timer cannot hold: a hundred years of 365 days. -/
def unboundedWait : Nat := Span.century

/-- The longest timeout that the timer can hold, in nanoseconds. -/
def timerLimit : Nat := Word.half64 * 1000000000

def nanosPerMilli : Nat := 1000000

/-- The deadlines of a caller that starts now. -/
def deadlines? (s : Site) (r : AcquireRequest) : Option Deadlines := do
  let wait := if r.timeout.ns < timerLimit then r.timeout.ns else unboundedWait
  let clockGiveUp ← s.now.after? r.timeout
  let ticketDeadline ← clockGiveUp.after? (s.settings r.node).lock.pollInterval
  return ⟨s.timer, s.timer * nanosPerMilli + wait, clockGiveUp, ticketDeadline⟩

/-- Whether the timeout has passed. -/
def timedOut (s : Site) (d : Deadlines) : Bool :=
  d.giveUp ≤ s.timer * nanosPerMilli || d.clockGiveUp ≤ s.now

/-- The first whole millisecond at which the time left or the poll interval is over. -/
def dueAt (s : Site) (r : AcquireRequest) (d : Deadlines) : Nat :=
  let left := d.giveUp - s.timer * nanosPerMilli
  let wait := min left (s.settings r.node).lock.pollInterval.ns
  s.timer + (wait + nanosPerMilli - 1) / nanosPerMilli

/-- After a look that led to nothing: give up or wait. -/
def settle (s : Site) (r : AcquireRequest) (w : Waiter) : AcquirePhase :=
  if timedOut s w.deadlines then .leaving w else .waiting w (dueAt s r w.deadlines)

/-- A failure while holding a ticket. The ticket is removed in the background. -/
def abandonWith (r : AcquireRequest) (w : Waiter) (e : Stop) : AcquirePhase × List Effect :=
  (.finished (.error e), [.revoke r.key w.ticket.number])

def timeoutError (s : Site) (r : AcquireRequest) (d : Deadlines) : Error :=
  .contentionTimeout r.key (s.timer - d.started)

/-- The next step of a caller. A waiting caller begins to look again; whether it is time for that is
for the scheduler to say. -/
def step (r : AcquireRequest) (s : Site) : AcquirePhase → AcquirePhase × Site × List Effect
  | .starting =>
    match deadlines? s r with
    | none => (.finished (.error .overflow), s, [])
    | some d => (.joining d, s, [])
  | .joining d =>
    match s.guarded r.node r.key (.enqueue r.holder d.ticketDeadline) with
    | (.error e, s) => (.finished (.error e), s, [])
    | (.ok t, s) => (.checking ⟨d, t, false⟩, s, [])
  | .checking w =>
    match s.guarded r.node r.key (.position w.ticket.number) with
    | (.error e, s) => let (p, fx) := abandonWith r w e; (p, s, fx)
    | (.ok (some 0), s) => (.granting w, s, [])
    | (.ok (some _), s) => (settle s r w, s, [])
    | (.ok none, s) =>
      if w.deadlines.clockGiveUp ≤ s.now then (settle s r w, s, []) else (.rejoining w, s, [])
  | .granting w =>
    match s.guarded r.node r.key (.grant none r.holder w.ticket.position r.ttl) with
    | (.error e, s) => let (p, fx) := abandonWith r w e; (p, s, fx)
    | (.ok (some lease), s) => (.taking w lease, s, [])
    | (.ok none, s) => (settle s r w, s, [])
  | .rejoining w =>
    match s.guarded r.node r.key (.enqueue r.holder w.deadlines.ticketDeadline) with
    | (.error e, s) => let (p, fx) := abandonWith r w e; (p, s, fx)
    | (.ok t, s) => let w := { w with ticket := t }; (settle s r w, s, [])
  | .waiting w _ => (.checking { w with woken := false }, s, [])
  | .taking w lease =>
    let (_, s) := s.lease r.key (.remove w.ticket.number)
    (.finished (.ok lease), s, [])
  | .leaving w =>
    let (_, s) := s.lease r.key (.remove w.ticket.number)
    (.finished (.error (.error (timeoutError s r w.deadlines))), s, [.wake r.node r.key])
  | .finished result => (.finished result, s, [])

/-- The waiter that a wake-up of its node and key reaches: one that has begun to look. -/
def wake : AcquirePhase → AcquirePhase
  | .checking w => .checking { w with woken := true }
  | .granting w => .granting { w with woken := true }
  | .rejoining w => .rejoining { w with woken := true }
  | .waiting w due => .waiting { w with woken := true } due
  | p => p

/-- The effects of dropping a caller at this point: its ticket is removed in the background. -/
def dropped (r : AcquireRequest) : AcquirePhase → List Effect
  | .checking w | .granting w | .rejoining w | .waiting w _ => [.revoke r.key w.ticket.number]
  | _ => []

/-- The millisecond until which the caller waits, unless it was woken. -/
def parkedUntil? : AcquirePhase → Option Nat
  | .waiting w due => if w.woken then none else some due
  | _ => none

def result? : AcquirePhase → Option (Except Stop Lease)
  | .finished result => some result
  | _ => none

end AcquirePhase

end FencedSessions

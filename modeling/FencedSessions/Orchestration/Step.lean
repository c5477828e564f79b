import FencedSessions.Lock.Acquire
import FencedSessions.Orchestration.Outcome

/-! A step of the service on one session, in calls: take the session's lock, load the session, orphan
it if it was abandoned, renew the lease, make the change, renew the lease again, save under the
lease's fence, release. The lock is released on every way out. -/

namespace FencedSessions

/-- A change that a step makes. -/
inductive Change where
  /-- Apply an event and, if there is a payload, add a checkpoint named after it. -/
  | transition (event : SessionEvent) (payload : Option Json)
  | checkpoint (payload : Json) (reason : String)
deriving DecidableEq, Repr

/-- A step; one without a change only looks whether the session was abandoned. -/
structure StepRequest where
  node : Nat
  id : SessionId
  change : Option Change
  timeout : Span
deriving DecidableEq, Repr

/-- What a successful change was. -/
inductive Detail where
  | transition (event : SessionEvent)
  | checkpoint (sequence : Nat)
deriving DecidableEq, Repr

namespace Change

/-- Makes the change at an instant. -/
def apply (c : Change) (s : Session) (now : Instant) : Except Refusal (Session × Detail) :=
  match c with
  | .transition event payload => do
    let s ← s.apply event now
    match payload with
    | none => return (s, .transition event)
    | some p => return (s.addCheckpoint p event.text now, .transition event)
  | .checkpoint payload reason =>
    .ok (s.addCheckpoint payload reason now, .checkpoint s.nextSequence)

end Change

/-- An orphaned session, on its way to the repository. -/
structure Orphaning where
  session : Session
  previous : Status
  quietMs : Int
  time : Instant
deriving DecidableEq, Repr

namespace Orphaning

/-- The reason of the checkpoint that marks an orphaned session. -/
def reason : String := "orphaned by rehydration"

/-- The checkpoint's payload. -/
def marker (s : Session) (now : Instant) (fence : Fence) : Json :=
  .sorted [
    ("previous_status", s.status.toJson),
    ("last_activity", .string s.lastActivity.text),
    ("quiet_ms", .int (now.millisSince s.lastActivity)),
    ("fence", .nat fence.value)]

/-- Orphans an abandoned session: one that is active and quiet for longer than the threshold. -/
def of? (s : Session) (now : Instant) (threshold : Int) (fence : Fence) :
    Except Refusal (Option Orphaning) :=
  if s.isStale now threshold then do
    let orphan ← s.force .orphaned now
    return some
      ⟨orphan.addCheckpoint (marker s now fence) reason now, s.status,
        now.millisSince s.lastActivity, now⟩
  else return none

end Orphaning

/-- What a step has come to when it is about to release its lock. -/
abbrev StepResult := Except Error (Outcome × Option Detail)

inductive StepPhase where
  | acquiring (p : AcquirePhase)
  /-- About to load the session. -/
  | loading (lease : Lease)
  /-- About to renew the lease for the saving of an orphaned session. -/
  | orphaning (lease : Lease) (o : Orphaning)
  | savingOrphan (lease : Lease) (o : Orphaning)
  /-- About to renew the lease before the change. -/
  | renewing (lease : Lease) (s : Session) (c : Change)
  /-- The session is changed; about to renew the lease for its saving. -/
  | confirming (lease : Lease) (s : Session) (d : Detail)
  | saving (lease : Lease) (s : Session) (d : Detail)
  | releasing (lease : Lease) (result : StepResult)
  | finished (outcome : Except Stop Outcome)

namespace StepPhase

/-- The phase in which every step begins. -/
def initial : StepPhase := .acquiring .starting

def acquireRequest (r : StepRequest) (s : Site) : AcquireRequest :=
  let settings := s.settings r.node
  ⟨r.node, r.id.text, settings.orchestrator.holder, r.timeout, settings.lock.leaseDuration⟩

/-- The event that tells of an outcome, if one does. -/
def event? (id : SessionId) (time : Instant) (o : Outcome) (detail : Option Detail) :
    Option Event :=
  match o, detail with
  | .success status version, some (.transition event) => some (.applied id event status version time)
  | .success _ version, some (.checkpoint n) => some (.checkpointed id n version time)
  | .success .., none => none
  | .invalidTransition reason, _ => some (.rejected id reason time)
  | .conflict _ reason, _ => some (.conflict id reason time)
  | .notFound, _ => some (.notFound id time)
  | .transientError reason, _ => some (.transient id reason time)

/-- Ends a step: its outcome is reported at the present clock reading. -/
def report (r : StepRequest) (s : Site) (o : Outcome) (detail : Option Detail) :
    StepPhase × Site × List Effect :=
  match event? r.id s.now o detail with
  | none => (.finished (.ok o), s, [])
  | some e => (.finished (.ok o), s.emit e, [])

/-- A call failed: release the lock, unless the task ends here. -/
def failWith (lease : Lease) (s : Site) (e : Stop) : StepPhase × Site × List Effect :=
  match e with
  | .overflow => (.finished (.error .overflow), s, [])
  | .error e => (.releasing lease (.error e), s, [])

/-- The session is loaded, and orphaned if it had to be. -/
def proceed (r : StepRequest) (lease : Lease) (s : Session) : StepPhase :=
  match r.change with
  | none => .releasing lease (.ok (.success s.status s.version, none))
  | some c => .renewing lease s c

def renewLease (r : StepRequest) (s : Site) (lease : Lease) : Except Stop Lease × Site :=
  s.renew r.node lease.resource lease.fence (s.settings r.node).lock.leaseDuration

/-- The next step, of at most one call. -/
def step (r : StepRequest) (s : Site) : StepPhase → StepPhase × Site × List Effect
  | .acquiring p =>
    match p.step (acquireRequest r s) s with
    | (.finished (.ok lease), s, fx) => (.loading lease, s, fx)
    | (.finished (.error .overflow), s, fx) => (.finished (.error .overflow), s, fx)
    | (.finished (.error (.error e)), s, fx) =>
      let (p, s, fx') := report r s (.ofError e) none
      (p, s, fx ++ fx')
    | (p, s, fx) => (.acquiring p, s, fx)
  | .loading lease =>
    match s.repo (.load r.id) with
    | (.error e, s) => failWith lease s e
    | (.ok none, s) => (.releasing lease (.ok (.notFound, none)), s, [])
    | (.ok (some session), s) =>
      let threshold := (s.settings r.node).orchestrator.staleness
      match Orphaning.of? session s.now threshold lease.fence with
      | .error e => (.releasing lease (.error e.toError), s, [])
      | .ok (some o) => (.orphaning lease o, s, [])
      | .ok none => (proceed r lease session, s, [])
  | .orphaning lease o =>
    match renewLease r s lease with
    | (.error e, s) => failWith lease s e
    | (.ok _, s) => (.savingOrphan lease o, s, [])
  | .savingOrphan lease o =>
    match s.repo (.save o.session o.session.version lease.fence) with
    | (.error e, s) => failWith lease s e
    | (.ok version, s) =>
      let s := s.emit (.rehydrated r.id o.previous o.quietMs o.time)
      (proceed r lease { o.session with version }, s, [])
  | .renewing lease session c =>
    match renewLease r s lease with
    | (.error e, s) => failWith lease s e
    | (.ok _, s) =>
      match c.apply session s.now with
      | .error e => (.releasing lease (.ok (.invalidTransition e.message, none)), s, [])
      | .ok (session, detail) => (.confirming lease session detail, s, [])
  | .confirming lease session detail =>
    match renewLease r s lease with
    | (.error e, s) => failWith lease s e
    | (.ok _, s) => (.saving lease session detail, s, [])
  | .saving lease session detail =>
    match s.repo (.save session session.version lease.fence) with
    | (.error e, s) => failWith lease s e
    | (.ok version, s) =>
      (.releasing lease (.ok (.success session.status version, some detail)), s, [])
  | .releasing lease result =>
    match s.release r.node lease.resource lease.fence with
    | (.error .overflow, s, fx) => (.finished (.error .overflow), s, fx)
    | (_, s, fx) =>
      let (outcome, detail) := match result with
        | .ok step => step
        | .error e => (Outcome.ofError e, none)
      let (p, s, fx') := report r s outcome detail
      (p, s, fx ++ fx')
  | .finished o => (.finished o, s, [])

theorem step_finished (r : StepRequest) (s : Site) (o : Except Stop Outcome) :
    (finished o).step r s = (.finished o, s, []) := by
  simp only [step]

def wake : StepPhase → StepPhase
  | .acquiring p => .acquiring p.wake
  | p => p

def dropped (r : AcquireRequest) : StepPhase → List Effect
  | .acquiring p => p.dropped r
  | _ => []

def parkedUntil? : StepPhase → Option Nat
  | .acquiring p => p.parkedUntil?
  | _ => none

def result? : StepPhase → Option (Except Stop Outcome)
  | .finished o => some o
  | _ => none

end StepPhase

end FencedSessions

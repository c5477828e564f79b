import FencedSessions.Error
import FencedSessions.Session.Status
import FencedSessions.Time.Instant

/-! A session: the durable record of a unit of work. Each of its changes either applies as a whole
or leaves the session as it was; history and checkpoints only ever grow at their ends. -/

namespace FencedSessions

/-- Progress that a later worker can resume from. -/
structure Checkpoint where
  /-- Counts from one in each session, without an upper bound. -/
  sequence : Nat
  payload : Json
  createdAt : Instant
  reason : String
deriving DecidableEq, Repr

/-- One change of status. -/
structure Transition where
  source : Status
  target : Status
  time : Instant
  /-- A correction by the system, not a request. -/
  forced : Bool
deriving DecidableEq, Repr

/-- A change that the lifecycle refuses. -/
inductive Refusal where
  | illegal (source target : Status)
  | notRecoverable (source : Status)
deriving DecidableEq, Repr

namespace Refusal

def message : Refusal → String
  | .illegal s t => "illegal transition " ++ s.text ++ " -> " ++ t.text
  | .notRecoverable s => "cannot retry from " ++ s.text ++ ": not a recoverable status"

def toError (r : Refusal) : Error := .invalidTransition r.message

end Refusal

structure Session where
  id : SessionId
  status : Status
  /-- A hint for schedulers, below 256. -/
  priority : Nat
  checkpoints : List Checkpoint
  /-- Oldest change first. -/
  history : List Transition
  /-- Set by the repository, one more with every save. It has no upper bound. -/
  version : Nat
  createdAt : Instant
  updatedAt : Instant
  /-- Sorted by name. -/
  metadata : List (String × Json)
deriving DecidableEq, Repr

namespace Session

def create (id : SessionId) (priority : Nat) (now : Instant) : Session :=
  { id, status := .pending, priority, checkpoints := [], history := [], version := 0
    createdAt := now, updatedAt := now, metadata := [] }

def lastCheckpoint? (s : Session) : Option Checkpoint := s.checkpoints.getLast?

def lastTransition? (s : Session) : Option Transition := s.history.getLast?

/-- Records a change of status without asking whether it is allowed. -/
def record (s : Session) (target : Status) (now : Instant) (forced : Bool) : Session :=
  { s with
    history := s.history ++ [⟨s.status, target, now, forced⟩]
    status := target
    updatedAt := now }

def nextSequence (s : Session) : Nat :=
  match s.lastCheckpoint? with
  | none => 1
  | some c => c.sequence + 1

/-- Appends a checkpoint. The status stays. -/
def addCheckpoint (s : Session) (payload : Json) (reason : String) (now : Instant) : Session :=
  { s with
    checkpoints := s.checkpoints ++ [⟨s.nextSequence, payload, now, reason⟩]
    updatedAt := now }

/-- What the checkpoint of a retry says about the attempt before it. -/
def retryPayload (s : Session) : Json :=
  .sorted [
    ("retry_of", s.status.toJson),
    ("previous_checkpoint", .ofOption (fun c => .nat c.sequence) s.lastCheckpoint?),
    ("previous_reason", .ofOption (fun c => .string c.reason) s.lastCheckpoint?)]

/-- Reopens an ended session, with a checkpoint that tells where the attempt before it ended. -/
def retry (s : Session) (now : Instant) : Except Refusal Session :=
  if s.status.isRecoverable then
    .ok ((s.record .pending now false).addCheckpoint s.retryPayload
      ("retry from " ++ s.status.text) now)
  else .error (.notRecoverable s.status)

/-- Moves to a status that may follow the present one. -/
def move (s : Session) (target : Status) (now : Instant) (forced : Bool) :
    Except Refusal Session :=
  if s.status.canBecome target then .ok (s.record target now forced)
  else .error (.illegal s.status target)

/-- Applies an event. -/
def apply (s : Session) (event : SessionEvent) (now : Instant) : Except Refusal Session :=
  if event = .retry then s.retry now else s.move event.target now false

/-- A correction by the system, within the same lifecycle. -/
def force (s : Session) (target : Status) (now : Instant) : Except Refusal Session :=
  s.move target now true

/-- The last sign of life: the later of the last checkpoint and the last change of status, or the
creation if there is neither. -/
def lastActivity (s : Session) : Instant :=
  match s.lastCheckpoint?, s.lastTransition? with
  | some c, some t => c.createdAt.latest t.time
  | some c, none => c.createdAt
  | none, some t => t.time
  | none, none => s.createdAt

/-- Whether an active session has been quiet for longer than `threshold` nanoseconds. -/
def isStale (s : Session) (now : Instant) (threshold : Int) : Bool :=
  s.status.isActive && decide (threshold < now.ns - s.lastActivity.ns)

/-- Whether a change of status could have been made by a request, a correction or a retry. -/
def Transition.legal (t : Transition) : Bool :=
  t.source.canBecome t.target || (t.target = .pending && t.source.isRecoverable)

/-- The status that a history leads to, if each of its changes starts where the one before it ended
and is legal. -/
def replay : (start : Status) → List Transition → Option Status
  | s, [] => some s
  | s, t :: ts => if t.source = s ∧ Transition.legal t then replay t.target ts else none

def historyIsValid (s : Session) : Bool := replay .pending s.history = some s.status

/-- Whether the checkpoints are numbered from `n` on without gaps. -/
def numberedFrom : (n : Nat) → List Checkpoint → Bool
  | _, [] => true
  | n, c :: cs => c.sequence = n && numberedFrom (n + 1) cs

def checkpointsAreGapless (s : Session) : Bool := numberedFrom 1 s.checkpoints

end Session

end FencedSessions

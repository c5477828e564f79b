import FencedSessions.Json.Record
import FencedSessions.Text.Blank

/-! The lifecycle of a session: its statuses, which of them may follow which, and the events that
ask for a change. -/

namespace FencedSessions

inductive Status where
  /-- Created, not yet scheduled. -/
  | pending
  /-- Waiting for a worker. -/
  | queued
  /-- A worker is at it. -/
  | running
  /-- Suspended by request. -/
  | paused
  /-- Finished. -/
  | completed
  /-- Finished with part of the work done. -/
  | partiallyCompleted
  /-- Finished with an error. -/
  | failed
  /-- Took longer than it may. -/
  | timeout
  /-- Halted by the system. -/
  | stopped
  /-- Cancelled by a user. -/
  | cancelled
  /-- Left by a worker that gave no sign of life. -/
  | orphaned
  /-- Running with reduced capability. -/
  | degraded
deriving DecidableEq, Repr, Inhabited

/-- The role of a status in the lifecycle. -/
inductive Category where
  | initial
  | active
  | success
  | failure
  | system
deriving DecidableEq, Repr

namespace Category

def text : Category → String
  | .initial => "initial"
  | .active => "active"
  | .success => "success"
  | .failure => "failure"
  | .system => "system"

def all : List Category := [.initial, .active, .success, .failure, .system]

def ofText? (s : String) : Option Category := all.find? fun c => c.text = s

def toJson (c : Category) : Json := .string c.text

def reader : Json.Reader Category := Json.Reader.choice ofText?

end Category

namespace Status

def all : List Status :=
  [.pending, .queued, .running, .paused, .completed, .partiallyCompleted, .failed, .timeout,
    .stopped, .cancelled, .orphaned, .degraded]

def text : Status → String
  | .pending => "PENDING"
  | .queued => "QUEUED"
  | .running => "RUNNING"
  | .paused => "PAUSED"
  | .completed => "COMPLETED"
  | .partiallyCompleted => "PARTIALLY_COMPLETED"
  | .failed => "FAILED"
  | .timeout => "TIMEOUT"
  | .stopped => "STOPPED"
  | .cancelled => "CANCELLED"
  | .orphaned => "ORPHANED"
  | .degraded => "DEGRADED"

def ofText? (s : String) : Option Status := all.find? fun c => c.text = s

def toJson (s : Status) : Json := .string s.text

def reader : Json.Reader Status := Json.Reader.choice ofText?

def category : Status → Category
  | .pending => .initial
  | .queued | .running | .paused | .degraded => .active
  | .completed | .partiallyCompleted => .success
  | .failed | .timeout | .cancelled => .failure
  | .stopped | .orphaned => .system

/-- The statuses that an ordinary change may lead to. -/
def successors : Status → List Status
  | .pending => [.queued, .running, .cancelled, .failed]
  | .queued => [.running, .cancelled, .failed, .timeout, .stopped, .orphaned]
  | .running =>
    [.paused, .degraded, .completed, .partiallyCompleted, .failed, .timeout, .stopped, .cancelled,
      .orphaned]
  | .paused => [.running, .failed, .timeout, .stopped, .cancelled, .orphaned]
  | .degraded =>
    [.running, .paused, .completed, .partiallyCompleted, .failed, .timeout, .stopped, .cancelled,
      .orphaned]
  | .completed | .partiallyCompleted | .failed | .timeout | .stopped | .cancelled | .orphaned => []

def canBecome (s t : Status) : Bool := s.successors.contains t

/-- Work is in flight. -/
def isActive (s : Status) : Bool := s.category = .active

/-- Work has ended. -/
def isTerminal (s : Status) : Bool :=
  s.category = .success || s.category = .failure || s.category = .system

/-- Ended, but a retry may reopen it. -/
def isRecoverable : Status → Bool
  | .failed | .timeout | .orphaned => true
  | _ => false

end Status

/-- A request for a change of status. -/
inductive SessionEvent where
  | enqueue
  | start
  | pause
  | resume
  | degrade
  | recover
  | complete
  | completePartially
  | fail
  | timeOut
  | stop
  | cancel
  | orphan
  | retry
deriving DecidableEq, Repr, Inhabited

namespace SessionEvent

def all : List SessionEvent :=
  [.enqueue, .start, .pause, .resume, .degrade, .recover, .complete, .completePartially, .fail,
    .timeOut, .stop, .cancel, .orphan, .retry]

/-- The status that the event asks for. -/
def target : SessionEvent → Status
  | .enqueue => .queued
  | .start | .resume | .recover => .running
  | .pause => .paused
  | .degrade => .degraded
  | .complete => .completed
  | .completePartially => .partiallyCompleted
  | .fail => .failed
  | .timeOut => .timeout
  | .stop => .stopped
  | .cancel => .cancelled
  | .orphan => .orphaned
  | .retry => .pending

def text : SessionEvent → String
  | .enqueue => "enqueue"
  | .start => "start"
  | .pause => "pause"
  | .resume => "resume"
  | .degrade => "degrade"
  | .recover => "recover"
  | .complete => "complete"
  | .completePartially => "complete_partially"
  | .fail => "fail"
  | .timeOut => "time_out"
  | .stop => "stop"
  | .cancel => "cancel"
  | .orphan => "orphan"
  | .retry => "retry"

def ofText? (s : String) : Option SessionEvent := all.find? fun e => e.text = s

def toJson (e : SessionEvent) : Json := .string e.text

def reader : Json.Reader SessionEvent := Json.Reader.choice ofText?

/-- The event a user names, with blanks around it, in any case and with hyphens for underscores. -/
def ofInput (s : String) : Except String SessionEvent :=
  let plain := (Text.trim s.toList).map fun c => if c = '-' then '_' else c.toLower
  match all.find? fun e => e.text.toList = plain with
  | some e => .ok e
  | none => .error ("unknown session event '" ++ s ++ "'")

end SessionEvent

end FencedSessions

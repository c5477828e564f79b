import FencedSessions.Breaker.Basic
import FencedSessions.Lease.DirectoryStore
import FencedSessions.Lease.MemoryStore
import FencedSessions.Lock.Settings
import FencedSessions.Orchestration.Counters
import FencedSessions.Orchestration.Settings
import FencedSessions.Repository.Directory
import FencedSessions.Repository.Memory

/-! A site: the stores that several nodes share, the clock they read, what has been counted and
recorded, and the breaker of each node. Calls to the stores can be disturbed: made to fail, or
followed by a jump of the clock. -/

namespace FencedSessions

/-- A disturbance of the calls of some name. -/
structure Disturbance where
  /-- A name, or the start of one and a star. -/
  pattern : String
  /-- How many calls to leave alone first. -/
  skip : Nat
  /-- How many calls to disturb after that. -/
  times : Nat
  /-- The error of a call that does not reach the store. -/
  error : Option Error
  /-- How far the clock moves after a call that does. -/
  advance : Option Span
deriving DecidableEq, Repr

namespace Disturbance

def concerns (d : Disturbance) (call : String) : Bool :=
  match d.pattern.toList.reverse with
  | '*' :: start => start.reverse.isPrefixOf call.toList
  | _ => d.pattern = call

/-- The disturbance of a call, and the plan after it. The first one that concerns the call and is not
used up decides. -/
def take : List Disturbance → (call : String) → Option Disturbance × List Disturbance
  | [], _ => (none, [])
  | d :: rest, call =>
    if 0 < d.times && d.concerns call then
      if 0 < d.skip then (none, { d with skip := d.skip - 1 } :: rest)
      else (some d, { d with times := d.times - 1 } :: rest)
    else
      let (found, rest) := take rest call
      (found, d :: rest)

end Disturbance

inductive LeaseBackend where
  | memory (m : MemoryLeases)
  | directory (path : String)
deriving DecidableEq, Repr

inductive RepositoryBackend where
  | memory (m : MemoryRepository)
  | directory (path : String)
deriving DecidableEq, Repr

/-- The settings of a node. -/
structure NodeSettings where
  lock : LockSettings := {}
  breaker : BreakerSettings := {}
  orchestrator : OrchestratorSettings
  health : HealthSettings := {}
deriving DecidableEq, Repr

/-- A node: its settings and the breaker of its lock. -/
structure Node where
  settings : NodeSettings
  breaker : Breaker := .initial
deriving DecidableEq, Repr

structure Site where
  /-- The clock that the nodes read, as far as it is set by hand. -/
  clock : Instant
  /-- Whether the clock also runs with the timer. -/
  running : Bool := false
  /-- Milliseconds on the timer. -/
  timer : Nat := 0
  leases : LeaseBackend := .memory {}
  repository : RepositoryBackend := .memory {}
  files : FileTree := {}
  nodes : List Node
  plan : List Disturbance := []
  /-- How often each call was made. -/
  calls : List (String × Nat) := []
  counters : Counters := {}
  /-- Events, oldest first. -/
  events : List Event := []
  /-- How many sessions were created. -/
  created : Nat := 0
deriving DecidableEq, Repr

/-- What a step asks of the other tasks of a site. -/
inductive Effect where
  /-- Wake the waiters of a node on a key. -/
  | wake (node : Nat) (key : String)
  /-- Remove a ticket in the background. -/
  | revoke (key : String) (ticket : Nat)
deriving DecidableEq, Repr

namespace LeaseOp

def callName : LeaseOp → String
  | .grant .. => "store.cas"
  | .extend .. => "store.extend"
  | .delete _ => "store.delete"
  | .get => "store.get"
  | .enqueue .. => "store.enqueue"
  | .position _ => "store.position"
  | .remove _ => "store.remove"
  | .queueLength => "store.queue_len"

end LeaseOp

namespace RepositoryOp

def callName : RepositoryOp → String
  | .load _ => "repo.load"
  | .create _ => "repo.create"
  | .save .. => "repo.save"
  | .list => "repo.list"

end RepositoryOp

namespace Site

/-- The clock reading. -/
def now (s : Site) : Instant :=
  if s.running then (s.clock.after? (.ofMillis s.timer)).getD .last else s.clock

/-- Moves the clock forward, unless that leaves the time line. -/
def advance (s : Site) (d : Span) : Site := { s with clock := (s.clock.after? d).getD s.clock }

/-- Notes a call, and answers its disturbance. -/
def note (s : Site) (call : String) : Option Disturbance × Site :=
  let (found, plan) := Disturbance.take s.plan call
  (found, { s with plan, calls := Json.insertField call ((s.calls.lookup call).getD 0 + 1) s.calls })

/-- Makes a call as its disturbance allows. -/
def disturbed {α : Type} (s : Site) (call : String) (act : Site → Except Stop α × Site) :
    Except Stop α × Site :=
  match s.note call with
  | (none, s) => act s
  | (some d, s) =>
    match d.error with
    | some e => (.error (.error e), s)
    | none =>
      let (answer, s) := act s
      match answer, d.advance with
      | .error .overflow, _ | _, none => (answer, s)
      | _, some jump => (answer, s.advance jump)

/-- Carries out an operation on the lease store. -/
def leaseRun (s : Site) (key : String) (op : LeaseOp) : Except Stop op.Answer × Site :=
  match s.leases with
  | .memory m =>
    let (answer, m) := m.run s.now key op
    (answer, { s with leases := .memory m })
  | .directory path =>
    let (answer, files) := DirectoryLeases.run s.files path s.now key op
    (answer, { s with files })

/-- Carries out an operation on the repository. -/
def repositoryRun (s : Site) (op : RepositoryOp) : Except Error op.Answer × Site :=
  match s.repository with
  | .memory m =>
    let (answer, m) := m.run op
    (answer, { s with repository := .memory m })
  | .directory path =>
    let (answer, files) := DirectoryRepository.run s.files path op
    (answer, { s with files })

/-- A call to the lease store. -/
def lease (s : Site) (key : String) (op : LeaseOp) : Except Stop op.Answer × Site :=
  s.disturbed op.callName fun s => s.leaseRun key op

/-- A call to the repository. -/
def repo (s : Site) (op : RepositoryOp) : Except Stop op.Answer × Site :=
  s.disturbed op.callName fun s =>
    let (answer, s) := s.repositoryRun op
    (answer.mapError .error, s)

/-- Counts and records an event. -/
def emit (s : Site) (e : Event) : Site :=
  { s with counters := s.counters.count e, events := s.events ++ [e] }

def node? (s : Site) (n : Nat) : Option Node := s.nodes[n]?

/-- The settings of a node; those of a node that does not exist are the defaults. -/
def settings (s : Site) (n : Nat) : NodeSettings :=
  match s.node? n with
  | some node => node.settings
  | none => { orchestrator := ⟨"", 300000⟩ }

def breaker (s : Site) (n : Nat) : Breaker :=
  match s.node? n with
  | some node => node.breaker
  | none => .initial

def setBreaker (s : Site) (n : Nat) (b : Breaker) : Site :=
  { s with nodes := s.nodes.modify n fun node => { node with breaker := b } }

/-- Reports the result of a call to the node's breaker. -/
def observed {α : Type} (s : Site) (n : Nat) (answer : Except Stop α) : Except Stop α × Site :=
  let (answer, b) := (s.breaker n).observe (s.settings n).breaker s.now answer
  (answer, s.setBreaker n b)

/-- Makes a call whether the node's breaker lets it through or not, and reports its result. -/
def unguarded (s : Site) (n : Nat) (key : String) (op : LeaseOp) : Except Stop op.Answer × Site :=
  let (answer, s) := s.lease key op
  s.observed n answer

/-- Makes a call if the node's breaker lets it through, and reports its result. -/
def guarded (s : Site) (n : Nat) (key : String) (op : LeaseOp) : Except Stop op.Answer × Site :=
  match (s.breaker n).pass (s.settings n).breaker s.now with
  | (.error e, b) => (.error e, s.setBreaker n b)
  | (.ok (), b) => (s.setBreaker n b).unguarded n key op

end Site

end FencedSessions

import FencedSessions.Cli.Answer
import FencedSessions.Cli.Command
import FencedSessions.Cli.Configuration
import FencedSessions.Cli.Metadata
import FencedSessions.Json.Ordered
import FencedSessions.Orchestration.Service
import FencedSessions.Site.Scheduler

/-! What each command does, as a chain of service calls and tasks that ends in an answer. -/

namespace FencedSessions.Cli

inductive Procedure : Type 1 where
  | finish (a : Answer)
  /-- Calls that take no time. -/
  | call {α : Type} (act : Site → α × Site) (next : α → Procedure)
  /-- Starts a task. Goes on with its number. -/
  | spawn (a : Activity) (next : Nat → Procedure)
  /-- Waits until a task has ended. -/
  | await (task : Nat) (next : Result → Procedure)

namespace Procedure

/-- Calls that may fail, which ends the procedure. -/
def attempt {α : Type} (act : Site → Except Stop α × Site) (next : α → Procedure) : Procedure :=
  .call act fun answer => match answer with
    | .ok a => next a
    | .error s => .finish (.ofStop s)

/-- Does a task and goes on with its result. -/
def perform (a : Activity) (next : Result → Procedure) : Procedure :=
  .spawn a fun task => .await task next

/-- Does a step and goes on with its outcome. -/
def step (a : Activity) (next : Outcome → Procedure) : Procedure :=
  perform a fun result => match result with
    | .steps _ (.ok o) => next o
    | .steps _ (.error s) => .finish (.ofStop s)
    | _ => .finish .crash

/-- The JSON of an argument. -/
def payload? (text : String) : Except Answer Json :=
  match Json.ofText text with
  | .ok v => .ok v
  | .error f => .error (.fail ("Invalid JSON payload: " ++ match f with
    | .truncated => "the text ends too early"
    | .malformed | .misfit => "the text is malformed"))

def create (priority : Nat) (entries : List String) : Procedure :=
  match parseMetadata entries with
  | .error e => .finish (.fail e.message)
  | .ok metadata =>
    attempt (fun s => s.createSession priority metadata) fun session =>
      .finish (.print session.toJson)

/-- Prints an outcome. -/
def outcome (o : Outcome) : Answer := .print o.toJson

def apply (c : Configuration) (id : SessionId) (event : SessionEvent) (payload : Option String)
    (timeoutMs : Option Nat) (retry : Bool) : Procedure :=
  match payload.mapM payload? with
  | .error a => .finish a
  | .ok payload =>
    let timeout := (timeoutMs.map Span.ofMillis).getD c.lock.acquireTimeout
    let r : StepRequest := ⟨0, id, some (.transition event payload), timeout⟩
    let activity := if retry then Activity.ofSteps c.retry r [] else .ofStep r
    step activity fun o =>
      .finish { outcome o with code := if o.isSuccess then 0 else 1 }

def checkpoint (c : Configuration) (id : SessionId) (payload reason : String) : Procedure :=
  match payload? payload with
  | .error a => .finish a
  | .ok payload =>
    step (.ofStep ⟨0, id, some (.checkpoint payload reason), c.lock.acquireTimeout⟩) fun o =>
      .finish (outcome o)

def recover (c : Configuration) (id : SessionId) : Procedure :=
  step (.ofStep ⟨0, id, none, c.lock.acquireTimeout⟩) fun o => .finish (outcome o)

def healthJson (score : Float) : Json := .number (.float score.toBits)

def display (id : SessionId) : Procedure :=
  attempt (fun s => s.snapshot id) fun found => match found with
    | none => .finish (.fail ("Session " ++ id.text ++ " not found"))
    | some session => attempt (fun s => s.health 0 id) fun health =>
      .finish (.print (Json.object [("session", session.toJson),
        ("health", .ofOption healthJson health)]).ordered)

def list : Procedure :=
  attempt (fun s => s.listSessions) fun ids =>
    .finish { code := 0, output := String.join (ids.map fun id => id.text ++ "\n") }

/-- A string in quotes, with escapes. -/
def quote (s : String) : String := String.ofList (Json.quoted s)

/-- An outcome in words, for a message. -/
def describe : Outcome → String
  | .success status version =>
    "Success \x7b status: " ++ status.text ++ ", version: " ++ Text.numeral version ++ " \x7d"
  | .invalidTransition reason => "InvalidTransition \x7b reason: " ++ quote reason ++ " \x7d"
  | .conflict retryable reason =>
    "Conflict \x7b retryable: " ++ (if retryable then "true" else "false") ++ ", reason: " ++
      quote reason ++ " \x7d"
  | .notFound => "NotFound"
  | .transientError reason => "TransientError \x7b reason: " ++ quote reason ++ " \x7d"

/-- The checkpoint that a worker makes in a simulation. -/
def workerStep (c : Configuration) (id : SessionId) (worker step : Nat) : StepRequest :=
  let payload := Json.object [("step", .nat step), ("worker", .nat worker)]
  ⟨0, id, some (.checkpoint payload ("worker-" ++ Text.numeral worker)), c.lock.acquireTimeout⟩

/-- The work of a worker; none if there are no steps. -/
def worker? (c : Configuration) (id : SessionId) (steps worker : Nat) : Option Activity :=
  match (List.range steps).map (workerStep c id worker) with
  | [] => none
  | r :: rest => some (.ofSteps c.retry r rest)

/-- Starts all tasks. -/
def spawnAll : List Activity → (List Nat → Procedure) → Procedure
  | [], next => next []
  | a :: as, next => .spawn a fun task => spawnAll as fun tasks => next (task :: tasks)

/-- Waits for all tasks. Goes on with how many of their steps succeeded. -/
def awaitAll (stored : Nat) (next : Nat → Procedure) : List Nat → Procedure
  | [] => next stored
  | task :: tasks => .await task fun result => match result with
    | .steps n (.ok _) => awaitAll (stored + n) next tasks
    | _ => .finish (.fail "a worker ended before its time")

/-- What a simulation prints at its end. -/
def simulationReport (id : SessionId) (stored : Nat) (last : Option Session) (c : Counters) : Json :=
  (Json.object [
    ("session_id", id.toJson), ("persisted_checkpoints", .nat stored),
    ("final_version", .ofOption Json.nat (last.map (·.version))),
    ("gapless", .ofOption Json.bool (last.map (·.checkpointsAreGapless))),
    ("metrics", c.report)]).ordered

/-- Workers that add checkpoints to one new session, all at once. -/
def simulate (c : Configuration) (workers steps : Nat) : Procedure :=
  let timeout := c.lock.acquireTimeout
  attempt (fun s => s.createSession 0 []) fun session =>
    let id := session.id
    step (.ofStep ⟨0, id, some (.transition .start none), timeout⟩) fun o =>
      if !o.isSuccess then .finish (.fail ("Could not start simulated session: " ++ describe o))
      else
        spawnAll ((List.range workers).filterMap (worker? c id steps)) <| awaitAll 0 fun stored =>
          step (.ofStep ⟨0, id, some (.transition .complete none), timeout⟩) fun _ =>
            attempt (fun s => s.snapshot id) fun last =>
              .call (fun s => (s.counters, s)) fun counters =>
                .finish (.print (simulationReport id stored last counters))

/-- The procedure of a command. -/
def ofCommand (c : Configuration) : Command → Procedure
  | .create priority entries => create priority entries
  | .apply id event payload timeoutMs retry => apply c id event payload timeoutMs retry
  | .checkpoint id payload reason => checkpoint c id payload reason
  | .display id => display id
  | .list => list
  | .recover id => recover c id
  | .simulate workers steps => simulate c workers steps

end Procedure

end FencedSessions.Cli

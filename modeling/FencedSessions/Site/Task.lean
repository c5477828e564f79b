import FencedSessions.Orchestration.Retry
import FencedSessions.Orchestration.Step

/-! Tasks of a site: what they are about, one step at a time. -/

namespace FencedSessions

/-- Service steps that one caller makes one after another, each retried under a policy. -/
structure Series where
  policy : RetryPolicy
  current : StepRequest
  /-- Retries of the current step so far. -/
  attempt : Nat
  /-- Steps still to make after the current one. -/
  rest : List StepRequest
  /-- Steps that succeeded so far. -/
  stored : Nat

inductive Activity where
  /-- Acquires a lease, which is kept under a name if there is one. -/
  | acquire (r : AcquireRequest) (p : AcquirePhase) (keep : Option String)
  | series (x : Series) (p : StepPhase)
  /-- Waits before the next attempt of a step. -/
  | pause (x : Series) (due : Nat)
  | sleep (due : Nat)
  /-- Removes the ticket of a caller that is gone. -/
  | revoke (key : String) (ticket : Nat)
  /-- Waits for another task. -/
  | join (task : Nat)
  | ended

/-- What a task has come to. -/
inductive Result where
  | lease (r : Except Stop Lease)
  /-- How many steps succeeded, and the outcome of the last one. -/
  | steps (stored : Nat) (last : Except Stop Outcome)
  | slept
  | revoked
  | joined
  | aborted

/-- Whether a task can go on: now, from a millisecond on, or when something else happens. -/
inductive Readiness where
  | now
  | due (ms : Nat)
  | blocked

namespace Activity

/-- Makes steps one after another. -/
def ofSteps (policy : RetryPolicy) (r : StepRequest) (rest : List StepRequest) : Activity :=
  .series ⟨policy, r, 0, rest, 0⟩ .initial

/-- A single step without retries. -/
def ofStep (r : StepRequest) : Activity := ofSteps { maxRetries := 0 } r []

def ofAcquire (r : AcquireRequest) (keep : Option String) : Activity := .acquire r .starting keep

/-- A step of a series has ended. -/
def afterStep (x : Series) (timer : Nat) (o : Outcome) : Activity × Option Result :=
  if o.retryable && x.attempt < x.policy.maxRetries then
    (.pause { x with attempt := x.attempt + 1 } (timer + x.policy.backoff x.attempt), none)
  else
    let stored := if o.isSuccess then x.stored + 1 else x.stored
    match x.rest with
    | [] => (.ended, some (.steps stored (.ok o)))
    | r :: rest => (.series { x with current := r, attempt := 0, rest, stored } .initial, none)

/-- The next step of a task. -/
def step (s : Site) : Activity → Activity × Option Result × Site × List Effect
  | .acquire r p keep =>
    let (p, s, fx) := p.step r s
    match p.result? with
    | some result => (.ended, some (.lease result), s, fx)
    | none => (.acquire r p keep, none, s, fx)
  | .series x p =>
    let (p, s, fx) := p.step x.current s
    match p.result? with
    | none => (.series x p, none, s, fx)
    | some (.error e) => (.ended, some (.steps x.stored (.error e)), s, fx)
    | some (.ok o) =>
      let (a, result) := afterStep x s.timer o
      (a, result, s, fx)
  | .pause x _ => (.series x .initial, none, s, [])
  | .sleep _ => (.ended, some .slept, s, [])
  | .revoke key ticket =>
    let (_, s) := s.lease key (.remove ticket)
    (.ended, some .revoked, s, [])
  | .join _ => (.ended, some .joined, s, [])
  | .ended => (.ended, none, s, [])

def readiness (timer : Nat) : Activity → Readiness
  | .acquire _ p _ => ofDue p.parkedUntil?
  | .series _ p => ofDue p.parkedUntil?
  | .pause _ due | .sleep due => if timer < due then .due due else .now
  | .revoke .. => .now
  | .join _ | .ended => .blocked
where
  ofDue : Option Nat → Readiness
  | none => .now
  | some due => .due due

/-- Whether a wake-up of a node and key concerns the task. -/
def waitsOn (s : Site) (node : Nat) (key : String) : Activity → Bool
  | .acquire r _ _ => r.node = node && r.key = key
  | .series x (.acquiring _) =>
    let r := StepPhase.acquireRequest x.current s
    r.node = node && r.key = key
  | _ => false

def wake : Activity → Activity
  | .acquire r p keep => .acquire r p.wake keep
  | .series x p => .series x p.wake
  | a => a

/-- The effects of dropping the task where it is. -/
def dropped (s : Site) : Activity → List Effect
  | .acquire r p _ => p.dropped r
  | .series x p => p.dropped (StepPhase.acquireRequest x.current s)
  | _ => []

end Activity

end FencedSessions

import FencedSessions.Orchestration.Service
import FencedSessions.Site.Task

/-! A crowd: clients of one site that go on in any order, one store call at a time. An `Act` is the
next thing that happens, so a run is a list of acts and every interleaving is some run. The scheduler
chooses one order; here nothing is chosen. Along the way a crowd notes what each step has learnt
from its own calls, which saves were accepted and what was answered; no act reads these notes. -/

namespace FencedSessions

/-- What a save was made for. -/
inductive Purpose where
  /-- The session was abandoned. -/
  | orphaning
  /-- The change that the step was asked for. -/
  | change
deriving DecidableEq, Repr

/-- An accepted save. -/
structure Save where
  client : Nat
  request : StepRequest
  purpose : Purpose
  /-- Whether the step had tried its change by then. -/
  tried : Bool
  /-- The clock reading at which the saved session was made up. -/
  time : Instant
  /-- How long the step's node lets an active session be quiet. -/
  threshold : Int
  stored : StoredSession
deriving DecidableEq, Repr

namespace Save

def id (w : Save) : SessionId := w.stored.session.id

def version (w : Save) : Nat := w.stored.session.version

/-- The session that is to be saved in place of `s`, before it has its new version. -/
def change? (w : Save) (s : Session) : Option Session :=
  match w.purpose with
  | .orphaning =>
    match Orphaning.of? s w.time w.threshold w.stored.fence with
    | .ok o => o.map (·.session)
    | .error _ => none
  | .change =>
    w.request.change.bind fun change =>
      match change.apply s w.time with
      | .ok (s, _) => some s
      | .error _ => none

/-- Makes the change of a save to the stored session, which goes up by one version. -/
def replay? (s : Session) (w : Save) : Option Session :=
  (w.change? s).map fun t => { t with version := s.version + 1 }

end Save

/-- What a step has learnt from its own calls. -/
structure Notes where
  /-- The session that it loaded. -/
  found : Option Session := none
  /-- The clock reading at which it last made up its session. -/
  time : Instant := ⟨0⟩
  /-- Whether it has tried its change. -/
  tried : Bool := false
  /-- Its accepted saves, oldest first. -/
  saves : List Save := []
deriving DecidableEq, Repr

namespace Notes

/-- Its accepted save of the session as abandoned. -/
def orphaned? (n : Notes) : Option Save := n.saves.find? fun w => w.purpose = .orphaning

/-- Its accepted save of the change that it was asked for. -/
def changed? (n : Notes) : Option Save := n.saves.find? fun w => w.purpose = .change

/-- The stored session that it makes its change to. -/
def before? (n : Notes) : Option Session :=
  match n.orphaned? with
  | some w => some w.stored.session
  | none => n.found

/-- The stored session as it last saw it. -/
def seen? (n : Notes) : Option Session :=
  match n.changed? with
  | some w => some w.stored.session
  | none => n.before?

/-- The save that the next call of a step makes, if the repository accepts it. -/
def save? (n : Notes) (client : Nat) (r : StepRequest) (s : Site) : StepPhase → Option Save
  | .savingOrphan lease o =>
    accepted .orphaning lease o.session (s.repo (.save o.session o.session.version lease.fence)).1
  | .saving lease session _ =>
    accepted .change lease session (s.repo (.save session session.version lease.fence)).1
  | _ => none
where
  accepted (purpose : Purpose) (lease : Lease) (session : Session) : Except Stop Nat → Option Save
  | .ok version =>
    some ⟨client, r, purpose, n.tried, n.time, (s.settings r.node).orchestrator.staleness,
      ⟨lease.fence, { session with version }⟩⟩
  | .error _ => none

/-- The notes after the next call of a step. -/
def after (n : Notes) (client : Nat) (r : StepRequest) (s : Site) (p : StepPhase) : Notes :=
  match p with
  | .loading _ =>
    match (s.repo (.load r.id)).1 with
    | .ok found => { n with found, time := (p.step r s).2.1.now }
    | .error _ => n
  | .renewing lease .. =>
    match (StepPhase.renewLease r s lease).1 with
    | .ok _ => { n with time := (p.step r s).2.1.now, tried := true }
    | .error _ => n
  | p => { n with saves := n.saves ++ (n.save? client r s p).toList }

end Notes

/-- A step that is over. -/
structure Ending where
  client : Nat
  request : StepRequest
  /-- What it answered, unless it was dropped before. -/
  outcome : Option Outcome
  notes : Notes
deriving DecidableEq, Repr

/-- A client and the notes of its current step. -/
structure Client where
  activity : Activity
  notes : Notes := {}

/-- The service step that an activity is at. -/
def Activity.stepping? : Activity → Option (StepRequest × StepPhase)
  | .series x p => some (x.current, p)
  | _ => none

/-- The next thing that happens. -/
inductive Act where
  /-- A client comes to acquire a lease. -/
  | acquire (r : AcquireRequest)
  /-- A client comes to make steps, one after another. -/
  | steps (policy : RetryPolicy) (first : StepRequest) (rest : List StepRequest)
  /-- A client goes on, by one call at most. -/
  | go (client : Nat)
  /-- A client is dropped where it is. -/
  | leave (client : Nat)
  | create (priority : Nat) (metadata : List (String × Json))
  | renew (node : Nat) (key : String) (fence : Fence) (extension : Span)
  | release (node : Nat) (key : String) (fence : Fence)
  | check (node : Nat) (key : String) (fence : Fence)
  /-- The clock is set, forward or back. -/
  | set (t : Instant)
  /-- Time passes on the timer. -/
  | tick (ms : Nat)
  /-- From now on calls are disturbed in this way. -/
  | disturb (plan : List Disturbance)

structure Crowd where
  site : Site
  clients : List Client := []
  /-- The accepted saves of all steps, oldest first. -/
  saves : List Save := []
  /-- The steps that are over, oldest first. -/
  endings : List Ending := []
  /-- The sessions that were created, as their creators were told. -/
  created : List Session := []

/-- A site before its first client comes. -/
def Site.crowd (s : Site) : Crowd := { site := s }

/-- A site with one node and with nothing in its stores. -/
def Site.single : Site :=
  { clock := ⟨0⟩, nodes := [{ settings := { orchestrator := ⟨"a", 300000⟩ } }] }

namespace Crowd

def now (c : Crowd) : Instant := c.site.now

/-- A client comes. -/
def enter (c : Crowd) (a : Activity) : Crowd := { c with clients := c.clients ++ [{ activity := a }] }

/-- Carries out an effect of a call. -/
def effect (c : Crowd) : Effect → Crowd
  | .wake node key =>
    { c with clients := c.clients.map fun x =>
        if x.activity.waitsOn c.site node key then { x with activity := x.activity.wake } else x }
  | .revoke key ticket => c.enter (.revoke key ticket)

def setClient (c : Crowd) (i : Nat) (x : Client) : Crowd := { c with clients := c.clients.set i x }

/-- What a client is after its next step. -/
def next (c : Crowd) (i : Nat) (x : Client) : Client :=
  let a := (x.activity.step c.site).1
  match x.activity.stepping? with
  | none => ⟨a, x.notes⟩
  | some (r, p) =>
    match (p.step r c.site).1.result? with
    | none => ⟨a, x.notes.after i r c.site p⟩
    | some _ => ⟨a, {}⟩

/-- The saves that a client's next step makes. -/
def saving (c : Crowd) (i : Nat) (x : Client) : List Save :=
  match x.activity.stepping? with
  | none => []
  | some (r, p) => (x.notes.save? i r c.site p).toList

/-- What ends with a client's next step. -/
def ending (c : Crowd) (i : Nat) (x : Client) : List Ending :=
  match x.activity.stepping? with
  | none => []
  | some (r, p) =>
    match (p.step r c.site).1.result? with
    | none => []
    | some result => [⟨i, r, result.toOption, x.notes.after i r c.site p⟩]

/-- A client makes its next step. -/
def go (c : Crowd) (i : Nat) : Crowd :=
  match c.clients[i]? with
  | none => c
  | some x =>
    let (_, _, site, fx) := x.activity.step c.site
    fx.foldl effect { c.setClient i (c.next i x) with
      site
      saves := c.saves ++ c.saving i x
      endings := c.endings ++ c.ending i x }

/-- What ends when a client is dropped. -/
def dropping (i : Nat) (x : Client) : List Ending :=
  match x.activity.stepping? with
  | none => []
  | some (r, _) => [⟨i, r, none, x.notes⟩]

/-- A client is dropped where it is. -/
def leave (c : Crowd) (i : Nat) : Crowd :=
  match c.clients[i]? with
  | none => c
  | some x =>
    (x.activity.dropped c.site).foldl effect
      { c.setClient i ⟨.ended, {}⟩ with endings := c.endings ++ dropping i x }

def act (c : Crowd) : Act → Crowd
  | .acquire r => c.enter (.ofAcquire r none)
  | .steps policy first rest => c.enter (.ofSteps policy first rest)
  | .go i => c.go i
  | .leave i => c.leave i
  | .create priority metadata =>
    let result := c.site.createSession priority metadata
    { c with site := result.2, created := c.created ++ result.1.toOption.toList }
  | .renew node key fence extension =>
    { c with site := (c.site.renew node key fence extension).2 }
  | .release node key fence =>
    let (_, site, fx) := c.site.release node key fence
    fx.foldl effect { c with site }
  | .check node key fence => { c with site := (c.site.check node key fence).2 }
  | .set t => { c with site := { c.site with clock := t } }
  | .tick ms => { c with site := { c.site with timer := c.site.timer + ms } }
  | .disturb plan => { c with site := { c.site with plan } }

def run (c : Crowd) (acts : List Act) : Crowd := acts.foldl act c

/-- Whether something holds of each act of a run, in the state in which it happens. -/
def along (p : Crowd → Act → Bool) : Crowd → List Act → Bool
  | _, [] => true
  | c, a :: acts => p c a && along p (c.act a) acts

section Invariants

/-! What holds before a run and is preserved by every act holds after the run. -/

variable {c : Crowd} {acts : List Act}

/-- An invariant may say something of the acts that are still to come. -/
theorem run_induction {P : Crowd → List Act → Prop} (hact : ∀ c a acts, P c (a :: acts) → P (c.act a) acts)
    (h : P c acts) : P (c.run acts) [] := by
  induction acts generalizing c with
  | nil => exact h
  | cons a acts ih => exact ih (hact c a acts h)

theorem run_invariant {P : Crowd → Prop} (hact : ∀ c a, P c → P (c.act a)) (h : P c) (acts : List Act) :
    P (c.run acts) :=
  run_induction (P := fun c _ => P c) (fun c a _ => hact c a) h

/-- Only acts that are as required have to preserve an invariant of a run in which all are. -/
theorem along_invariant {P : Crowd → Prop} {p : Crowd → Act → Bool}
    (hact : ∀ c a, p c a → P c → P (c.act a)) (h : P c) (hacts : c.along p acts) : P (c.run acts) := by
  refine (run_induction (P := fun c acts => P c ∧ c.along p acts) ?_ ⟨h, hacts⟩).1
  rintro c a acts ⟨h, hacts⟩
  obtain ⟨hone, hrest⟩ := (Bool.and_eq_true _ _).mp hacts
  exact ⟨hact c a hone h, hrest⟩

end Invariants

end Crowd

end FencedSessions

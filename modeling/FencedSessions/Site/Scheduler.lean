import FencedSessions.Site.Task

/-! The scheduler of a site. Tasks run in the order in which they became ready, each as far as it
can; the foreground task goes first whenever all others have had their turn. The timer stands still
while anything can run and then jumps to the next due time. -/

namespace FencedSessions

structure Task where
  id : Nat
  activity : Activity
  /-- When the task last began to wait, counted over all tasks. -/
  parked : Nat := 0
  aborted : Bool := false
  result : Option Result := none

structure World where
  site : Site
  /-- In the order of their start. -/
  tasks : List Task := []
  /-- Background tasks that can run, the next one first. -/
  ready : List Nat := []
  foreground : Option Nat := none
  foregroundReady : Bool := false
  /-- The task at work. -/
  current : Option Nat := none
  /-- Whether the background tasks are having their turn. -/
  round : Bool := false
  nextTask : Nat := 0
  parkings : Nat := 0
  /-- Leases kept under a name. -/
  guards : List (String × Lease) := []

namespace World

def task? (w : World) (id : Nat) : Option Task := w.tasks.find? fun t => t.id = id

def result? (w : World) (id : Nat) : Option Result := (w.task? id).bind (·.result)

def setTask (w : World) (t : Task) : World :=
  { w with tasks := w.tasks.map fun t' => if t'.id = t.id then t else t' }

/-- Puts a task into the queue of those that can run. -/
def rouse (w : World) (id : Nat) : World :=
  if w.foreground = some id then { w with foregroundReady := true }
  else if w.ready.contains id then w
  else { w with ready := w.ready ++ [id] }

/-- Starts a background task. Answers its number. -/
def spawn (w : World) (a : Activity) : Nat × World :=
  let id := w.nextTask
  let t : Task := { id, activity := a }
  (id, { w with tasks := w.tasks ++ [t], nextTask := id + 1 }.rouse id)

/-- The tasks that a condition holds of, those that have waited longest first. -/
def waitingTasks (w : World) (p : Task → Bool) : List Task :=
  (w.tasks.filter p).mergeSort fun a b => a.parked ≤ b.parked

def isParked (timer : Nat) (t : Task) : Bool :=
  match t.activity.readiness timer with
  | .now => false
  | _ => true

/-- Carries out an effect of a step. -/
def effect (w : World) : Effect → World
  | .wake node key =>
    let woken := w.waitingTasks fun t => t.result.isNone && t.activity.waitsOn w.site node key
    woken.foldl (fun w t =>
      let parked := isParked w.site.timer t
      let w := w.setTask { t with activity := t.activity.wake }
      if parked then w.rouse t.id else w) w
  | .revoke key ticket => (w.spawn (.revoke key ticket)).2

/-- Tells the tasks that wait for an ended one. -/
def announce (w : World) (id : Nat) : World :=
  (w.tasks.filter fun t => match t.activity with
    | .join target => target = id
    | _ => false).foldl (fun w t => w.rouse t.id) w

/-- Ends a task. A lease it acquired is kept under its name. -/
def finish (w : World) (t : Task) (result : Result) : World :=
  let w := w.setTask { t with result := some result, activity := .ended }
  let w := match t.activity, result with
    | .acquire _ _ (some name), .lease (.ok lease) =>
      { w with guards := Json.insertField name lease w.guards }
    | _, _ => w
  { w with current := none }.announce t.id

/-- The task at work stops for now. -/
def park (w : World) (t : Task) : World :=
  let n := w.parkings + 1
  { w.setTask { t with parked := n } with current := none, parkings := n }

/-- One step of a task. -/
def stepTask (w : World) (t : Task) : World :=
  if t.result.isSome then { w with current := none }
  else if t.aborted then
    let fx := t.activity.dropped w.site
    fx.foldl effect (w.finish t .aborted)
  else
    let (a, result, site, fx) := t.activity.step w.site
    let w := { w with site }
    match result with
    | some result => fx.foldl effect (w.finish t result)
    | none =>
      let t := { t with activity := a }
      match a.readiness w.site.timer with
      | .now => fx.foldl effect (w.setTask t)
      | _ => fx.foldl effect (w.park t)

/-- Gives the turn to a task. -/
def turn (w : World) (id : Nat) : World := { w with current := some id }

/-- One step of whatever can run without time passing. -/
def micro (w : World) : Option World :=
  match w.current with
  | some id =>
    match w.task? id with
    | some t => some (w.stepTask t)
    | none => some { w with current := none }
  | none =>
    if w.round then
      match w.ready with
      | id :: rest => some ({ w with ready := rest }.turn id)
      | [] => if w.foregroundReady then some { w with round := false } else none
    else if w.foregroundReady then
      match w.foreground with
      | some id => some ({ w with foregroundReady := false, round := true }.turn id)
      | none => some { w with foregroundReady := false, round := true }
    else some { w with round := true }

/-- The millisecond at which a task is due. -/
def dueOf (timer : Nat) (t : Task) : Option Nat :=
  if t.result.isSome then none
  else match t.activity.readiness timer with
    | .due ms => some ms
    | _ => none

/-- Lets time pass until the next task is due. -/
def elapse (w : World) : Option World :=
  let dues := w.tasks.filterMap (dueOf w.site.timer)
  match dues with
  | [] => none
  | d :: ds =>
    let timer := max w.site.timer (ds.foldl min d)
    let due := w.waitingTasks fun t => match dueOf w.site.timer t with
      | some ms => ms ≤ timer
      | none => false
    let w := { w with site := { w.site with timer } }
    some (due.foldl (fun w t => w.rouse t.id) { w with round := false })

/-- One step of whatever can run; time passes when nothing can. -/
def advance (w : World) : Option World :=
  match w.micro with
  | some w => some w
  | none => w.elapse

/-- Runs all tasks as far as they can without time passing, in at most `fuel` steps. -/
def settle : (fuel : Nat) → World → World
  | 0, w => w
  | fuel + 1, w =>
    match w.micro with
    | some w => settle fuel w
    | none => { w with round := false }

/-- Runs all tasks, time passing, until one has ended. -/
def await (id : Nat) : (fuel : Nat) → World → World
  | 0, w => w
  | fuel + 1, w =>
    if (w.result? id).isSome && w.current.isNone then w
    else match w.advance with
      | some w => await id fuel w
      | none => w

/-- More steps than any run of a site takes. -/
def patience : Nat := 1000000000000000

/-- Starts a task in the foreground and runs everything until it has ended. -/
def perform (w : World) (a : Activity) : Option Result × World :=
  let id := w.nextTask
  let t : Task := { id, activity := a }
  let w := { w with
    tasks := w.tasks ++ [t]
    nextTask := id + 1
    foreground := some id
    foregroundReady := !isParked w.site.timer t
    round := false }
  let w := w.await id patience
  (w.result? id, { w with
    foreground := none
    foregroundReady := false
    tasks := w.tasks.filter fun t => t.id ≠ id })

/-- Ends a background task before its time. -/
def abort (w : World) (id : Nat) : World :=
  match w.task? id with
  | none => w
  | some t =>
    if t.result.isSome then w else (w.setTask { t with aborted := true }).rouse id

end World

end FencedSessions

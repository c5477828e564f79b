import FencedSessions.Session.Basic

/-! Health scores: a number between zero and one that sums up how a session is doing. The status
gives a base, troubled changes of status are subtracted, and an active session that has been quiet
for longer than expected is divided by how much longer. -/

namespace FencedSessions

structure HealthSettings where
  /-- How often an active session is expected to show life. Zero turns the decay off. -/
  expectedIntervalMs : Nat := 60000
  /-- How many of the last changes of status count. -/
  window : Nat := 10
deriving DecidableEq, Repr

namespace Health

def base : Status → Float
  | .pending | .queued | .running | .completed => 1.0
  | .paused => 0.8
  | .partiallyCompleted => 0.7
  | .cancelled => 0.6
  | .degraded => 0.5
  | .stopped => 0.4
  | .failed | .timeout => 0.2
  | .orphaned => 0.1

def penalty (t : Transition) : Float :=
  let p : Float := match t.target with
    | .degraded => 0.1
    | .failed | .timeout | .orphaned => 0.15
    | .pending => 0.1
    | .paused => 0.05
    | _ => 0.0
  if t.forced then p + 0.1 else p

/-- The changes of status that count. -/
def recent (s : Session) (window : Nat) : List Transition :=
  s.history.drop (s.history.length - window)

def score (s : Session) (now : Instant) (settings : HealthSettings) : Float :=
  let troubles := (recent s settings.window).foldl (fun sum t => sum + penalty t) 0.0
  let fresh := base s.status - troubles
  let decayed :=
    if s.status.isActive && 0 < settings.expectedIntervalMs then
      let quiet := (now.millisSince s.lastActivity).toNat.toUInt64.toFloat
      let ratio := quiet / settings.expectedIntervalMs.toUInt64.toFloat
      if ratio > 1.0 then fresh / ratio else fresh
    else fresh
  if decayed < 0.0 then 0.0 else if decayed > 1.0 then 1.0 else decayed

end Health

end FencedSessions

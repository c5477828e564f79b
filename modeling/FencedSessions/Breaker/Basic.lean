import FencedSessions.Error
import FencedSessions.Time.Instant
import FencedSessions.Word

/-! The circuit breaker in front of a store. After a number of failures in a row it rejects calls
until a cooldown has passed; then it lets one call through as a probe and rejects the others. The
probe's result closes or reopens it, and a probe that never reports is replaced after another
cooldown. -/

namespace FencedSessions

structure BreakerSettings where
  /-- Failures in a row that open the circuit, below 2³². -/
  threshold : Nat := 5
  /-- Below 2⁶⁴. -/
  cooldownMs : Nat := 10000
deriving DecidableEq, Repr

namespace BreakerSettings

/-- The cooldown in nanoseconds. Its milliseconds are taken as a signed 64-bit word, whose least
value has no counterpart. -/
def cooldown? (c : BreakerSettings) : Option Int :=
  if c.cooldownMs < Word.half64 then some (c.cooldownMs * 1000000)
  else if c.cooldownMs = Word.half64 then none
  else some (-(Word.size64 - c.cooldownMs : Nat) * 1000000)

/-- The end of a cooldown that starts at an instant. -/
def cooldownEnd? (c : BreakerSettings) (start : Instant) : Option Instant :=
  c.cooldown?.bind start.shift?

end BreakerSettings

/-- What a breaker shows of its state. -/
inductive CircuitState where
  | closed
  | opened
  | halfOpen
deriving DecidableEq, Repr

inductive Breaker where
  | closed (failures : Nat)
  /-- Rejects calls before the instant. -/
  | opened (retryAt : Instant)
  /-- A probe was let through at the instant. -/
  | halfOpen (probeAt : Instant)
deriving DecidableEq, Repr

namespace Breaker

def initial : Breaker := .closed 0

def circuit : Breaker → CircuitState
  | .closed _ => .closed
  | .opened _ => .opened
  | .halfOpen _ => .halfOpen

/-- The rejection of a call, with the whole milliseconds left until an instant. -/
def reject (retryAt now : Instant) : Except Stop Unit :=
  .error (.error (.circuitOpen (retryAt.millisSince now).toNat))

/-- Lets a call through or rejects it. -/
def pass (c : BreakerSettings) (now : Instant) (b : Breaker) : Except Stop Unit × Breaker :=
  match b with
  | .closed _ => (.ok (), b)
  | .opened retryAt =>
    if retryAt ≤ now then (.ok (), .halfOpen now) else (reject retryAt now, b)
  | .halfOpen probeAt =>
    match c.cooldownEnd? probeAt with
    | none => (.error .overflow, b)
    | some retryAt =>
      if retryAt ≤ now then (.ok (), .halfOpen now) else (reject retryAt now, b)

def recordSuccess (_ : Breaker) : Breaker := .closed 0

/-- Counts a failure, or opens the circuit. -/
def recordFailure (c : BreakerSettings) (now : Instant) (b : Breaker) :
    Except Stop Unit × Breaker :=
  let trip : Except Stop Unit × Breaker :=
    match c.cooldownEnd? now with
    | none => (.error .overflow, b)
    | some retryAt => (.ok (), .opened retryAt)
  match b with
  | .closed failures =>
    if c.threshold ≤ failures + 1 then trip else (.ok (), .closed (failures + 1))
  | .opened _ | .halfOpen _ => trip

/-- Takes note of a result. A failure that says nothing about the store is ignored. -/
def observe {α : Type} (c : BreakerSettings) (now : Instant) (result : Except Stop α) (b : Breaker) :
    Except Stop α × Breaker :=
  match result with
  | .ok a => (.ok a, b.recordSuccess)
  | .error .overflow => (.error .overflow, b)
  | .error (.error e) =>
    if e.transient then
      match b.recordFailure c now with
      | (.ok (), b) => (.error (.error e), b)
      | (.error s, b) => (.error s, b)
    else (.error (.error e), b)

end Breaker

end FencedSessions

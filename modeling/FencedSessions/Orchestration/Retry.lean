import FencedSessions.Json.Record
import FencedSessions.Orchestration.Outcome
import FencedSessions.Word

/-! Retrying a step: how long to wait before each further attempt and when to give up. -/

namespace FencedSessions

open Json (Reader Record)

structure RetryPolicy where
  /-- Attempts after the first one, below 2³². -/
  maxRetries : Nat := 3
  baseMs : Nat := 50
  capMs : Nat := 2000
  /-- Whether a delay is drawn between zero and its bound. -/
  jitter : Bool := true
deriving DecidableEq, Repr

namespace RetryPolicy

def toJson (p : RetryPolicy) : Json :=
  .object [("max_retries", .nat p.maxRetries), ("backoff_base_ms", .nat p.baseMs),
    ("backoff_max_ms", .nat p.capMs), ("jitter", .bool p.jitter)]

/-- Every field may be absent. -/
def record : Record RetryPolicy :=
  Record.build RetryPolicy.mk
    |>.andField (Record.fieldOr "max_retries" Reader.word32 3)
    |>.andField (Record.fieldOr "backoff_base_ms" Reader.word64 50)
    |>.andField (Record.fieldOr "backoff_max_ms" Reader.word64 2000)
    |>.andField (Record.fieldOr "jitter" Reader.bool true)

def reader : Reader RetryPolicy := record.reader

def wordMax : Nat := Word.size64 - 1

/-- A power of two, or the largest 64-bit number if it is greater. -/
def powerOfTwo (n : Nat) : Nat := if n < 64 then Nat.pow 2 n else wordMax

/-- The bound of the delay after a failed attempt, counted from zero: it doubles with each attempt up to
the cap. Products beyond 64 bits count as the largest 64-bit number. -/
def backoff (p : RetryPolicy) (attempt : Nat) : Nat :=
  min (min (p.baseMs * powerOfTwo attempt) wordMax) p.capMs

/-- The delay after a failed attempt. With jitter it is drawn, up to the backoff. -/
def delay (p : RetryPolicy) (draw : Nat → Nat) (attempt : Nat) : Nat :=
  let bound := p.backoff attempt
  if p.jitter && 0 < bound then draw bound else bound

/-- How a retried operation went. -/
structure Course where
  /-- The delays between the calls. -/
  slept : List Nat
  calls : Nat
  outcome : Outcome
deriving DecidableEq, Repr

/-- Calls an operation until its outcome is final or no retry is `left`. `answer i` is the outcome of
the call numbered `i`, and `draw i` chooses the delay after it for a bound. -/
def course (p : RetryPolicy) (draw : Nat → Nat → Nat) (answer : Nat → Outcome) :
    (left attempt : Nat) → Course
  | 0, attempt => ⟨[], 1, answer attempt⟩
  | left + 1, attempt =>
    if (answer attempt).retryable then
      let rest := p.course draw answer left (attempt + 1)
      ⟨p.delay (draw attempt) attempt :: rest.slept, rest.calls + 1, rest.outcome⟩
    else ⟨[], 1, answer attempt⟩

/-- The course of an operation from its first call. -/
def runDrawing (p : RetryPolicy) (draw : Nat → Nat → Nat) (answer : Nat → Outcome) : Course :=
  p.course draw answer p.maxRetries 0

/-- The course where a draw goes by its bound alone. -/
def run (p : RetryPolicy) (draw : Nat → Nat) (answer : Nat → Outcome) : Course :=
  p.runDrawing (fun _ => draw) answer

end RetryPolicy

end FencedSessions

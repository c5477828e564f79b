import FencedSessions.Json.Record
import FencedSessions.Orchestration.Event

/-! Counters of events. They are natural numbers, which do not run out as 64-bit words would. -/

namespace FencedSessions

open Json (Reader Record)

/-- How many events of each kind there were. -/
structure Counters where
  created : Nat := 0
  applied : Nat := 0
  checkpointed : Nat := 0
  rejected : Nat := 0
  conflicts : Nat := 0
  notFound : Nat := 0
  transient : Nat := 0
  rehydrated : Nat := 0
  /-- Applied events by the name of the status that they reached, sorted. -/
  byStatus : List (String × Nat) := []
deriving DecidableEq, Repr

namespace Counters

/-- Steps that stored nothing of what the caller asked for. -/
def failures (c : Counters) : Nat := c.rejected + c.conflicts + c.notFound + c.transient

def bump (counts : List (String × Nat)) (name : String) : List (String × Nat) :=
  Json.insertField name ((counts.lookup name).getD 0 + 1) counts

def count (c : Counters) (e : Event) : Counters :=
  match e with
  | .created .. => { c with created := c.created + 1 }
  | .applied _ _ status _ _ =>
    { c with applied := c.applied + 1, byStatus := bump c.byStatus status.text }
  | .checkpointed .. => { c with checkpointed := c.checkpointed + 1 }
  | .rejected .. => { c with rejected := c.rejected + 1 }
  | .conflict .. => { c with conflicts := c.conflicts + 1 }
  | .notFound .. => { c with notFound := c.notFound + 1 }
  | .transient .. => { c with transient := c.transient + 1 }
  | .rehydrated .. => { c with rehydrated := c.rehydrated + 1 }

def toJson (c : Counters) : Json :=
  .object [("created", .nat c.created), ("applied", .nat c.applied),
    ("checkpointed", .nat c.checkpointed), ("rejected", .nat c.rejected),
    ("conflicts", .nat c.conflicts), ("not_found", .nat c.notFound),
    ("transient", .nat c.transient), ("rehydrated", .nat c.rehydrated),
    ("by_status", .object (c.byStatus.map fun (k, n) => (k, .nat n)))]

def record : Record Counters :=
  Record.build Counters.mk
    |>.andField (Record.field "created" Reader.word64)
    |>.andField (Record.field "applied" Reader.word64)
    |>.andField (Record.field "checkpointed" Reader.word64)
    |>.andField (Record.field "rejected" Reader.word64)
    |>.andField (Record.field "conflicts" Reader.word64)
    |>.andField (Record.field "not_found" Reader.word64)
    |>.andField (Record.field "transient" Reader.word64)
    |>.andField (Record.field "rehydrated" Reader.word64)
    |>.andField (Record.field "by_status" Reader.word64.dictionary)

def reader : Reader Counters := record.reader

/-- The counters with the number of failures. -/
def report (c : Counters) : Json :=
  .object [("counters", c.toJson), ("failures", .nat c.failures)]

end Counters

/-- An observer of events. Observers never change an outcome. -/
inductive Hook where
  /-- Adds to the shared counters. -/
  | metrics
  /-- Writes the event to the log, which is no part of any answer. -/
  | log

/-- Hands an event to every observer in turn. -/
def Counters.dispatch (hooks : List Hook) (c : Counters) (e : Event) : Counters :=
  hooks.foldl (fun c h => match h with
    | .metrics => c.count e
    | .log => c) c

end FencedSessions

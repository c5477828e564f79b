import FencedSessions.Cli.Arguments
import FencedSessions.Session.Status
import FencedSessions.SessionId
import FencedSessions.Word

/-! The commands and how they are named on the command line. -/

namespace FencedSessions.Cli

inductive Command where
  | create (priority : Nat) (metadata : List String)
  | apply (id : SessionId) (event : SessionEvent) (payload : Option String)
      (timeoutMs : Option Nat) (retry : Bool)
  | checkpoint (id : SessionId) (payload reason : String)
  | display (id : SessionId)
  | list
  | recover (id : SessionId)
  | simulate (workers steps : Nat)
deriving DecidableEq, Repr

structure Invocation where
  /-- The path of the configuration file. -/
  configuration : String
  command : Command
deriving DecidableEq, Repr

namespace Command

/-- The session that a command is about, if it exists already. -/
def subject? : Command → Option SessionId
  | .apply id .. | .checkpoint id .. | .display id | .recover id => some id
  | .create .. | .list | .simulate .. => none

/-- The number that digits after an optional plus sign spell. -/
def natural? (cs : List Char) : Option Nat :=
  let ds := match cs with
    | '+' :: ds => ds
    | ds => ds
  if !ds.isEmpty && ds.all Char.isDigit then some (Text.decimalValue ds) else none

/-- A 64-bit number. -/
def word64? (s : String) : Option Nat := do
  let n ← natural? s.toList
  if n < Word.size64 then some n else none

/-- A number below a bound. Zero may have a minus sign. -/
def small? (bound : Nat) (s : String) : Option Nat :=
  match s.toList with
  | '-' :: ds =>
    if !ds.isEmpty && ds.all Char.isDigit && Text.decimalValue ds = 0 then some 0 else none
  | cs => do
    let n ← natural? cs
    if n < bound then some n else none

def event? (s : String) : Option SessionEvent := (SessionEvent.ofInput s).toOption

/-- Refuses the values that have no image. -/
def wanting {α : Type} (f : String → Option α) (s : String) : Option Misuse :=
  match f s with
  | some _ => none
  | none => some .badValue

def sessionParameter : Parameter := { name := "session_id", refusal := wanting SessionId.ofText? }

def createShape : Shape where
  options := [
    { name := "priority", letter := 'p', refusal := wanting (small? Word.size8) },
    { name := "meta", letter := 'm', repeats := true }]
  positionals := []

def applyShape : Shape where
  options := [
    { name := "payload" },
    { name := "timeout-ms", refusal := wanting word64? },
    { name := "retry", takesValue := false }]
  positionals := [sessionParameter, { name := "event", refusal := wanting event? }]

def checkpointShape : Shape where
  options := [{ name := "reason" }]
  positionals := [sessionParameter, { name := "payload" }]

/-- A command about a session and nothing else. -/
def sessionShape : Shape := ⟨[], [sessionParameter]⟩

def simulateShape : Shape where
  options := [
    { name := "workers", letter := 'w', refusal := wanting (small? Word.size32) },
    { name := "steps", letter := 's', refusal := wanting (small? Word.size32) }]
  positionals := []

/-- A number that may be left out. -/
def numberOr (m : Matches) (name : String) (bound absent : Nat) : Nat :=
  ((m.one? name).bind (small? bound)).getD absent

/-- A required value. -/
def required {α : Type} (m : Matches) (name : String) (f : String → Option α) :
    Except Misuse α :=
  match (m.one? name).bind f with
  | some a => .ok a
  | none => .error .missingArgument

def readCreate (args : List String) : Except Misuse Command := do
  let m ← Matches.ofArguments createShape args
  return .create (numberOr m "priority" Word.size8 0) (m.all "meta")

def readApply (args : List String) : Except Misuse Command := do
  let m ← Matches.ofArguments applyShape args
  let id ← required m "session_id" SessionId.ofText?
  let event ← required m "event" event?
  return .apply id event (m.one? "payload") ((m.one? "timeout-ms").bind word64?) (m.isGiven "retry")

def readCheckpoint (args : List String) : Except Misuse Command := do
  let m ← Matches.ofArguments checkpointShape args
  let id ← required m "session_id" SessionId.ofText?
  let payload ← required m "payload" some
  return .checkpoint id payload ((m.one? "reason").getD "manual")

def readSession (make : SessionId → Command) (args : List String) : Except Misuse Command := do
  let m ← Matches.ofArguments sessionShape args
  return make (← required m "session_id" SessionId.ofText?)

def readList (args : List String) : Except Misuse Command := do
  let _ ← Matches.ofArguments ⟨[], []⟩ args
  return .list

def readSimulate (args : List String) : Except Misuse Command := do
  let m ← Matches.ofArguments simulateShape args
  return .simulate (numberOr m "workers" Word.size32 4) (numberOr m "steps" Word.size32 5)

/-- The commands by name, with the readers of their arguments. -/
def named : List (String × (List String → Except Misuse Command)) :=
  [("create", readCreate), ("apply", readApply), ("checkpoint", readCheckpoint),
    ("show", readSession .display), ("list", readList), ("recover", readSession .recover),
    ("simulate", readSimulate)]

/-- What stands after the word `help`: one command at most. -/
def readHelp (args : List String) : Misuse :=
  match args with
  | [] => .help
  | [name] => if name = "help" || (named.lookup name).isSome then .help else .unknownCommand
  | _ => .unknownCommand

end Command

namespace Invocation

/-- A path is not empty. -/
def pathRefusal (s : String) : Option Misuse := if s.isEmpty then some .missingValue else none

/-- The arguments in front of a command. -/
def shape : Shape where
  options := [{ name := "config", letter := 'c', refusal := pathRefusal }]
  positionals := []

def defaultConfiguration : String := "keystone.toml"

/-- What an argument is where a command is wanted. -/
def stray (m : Matches) (a : String) : Misuse :=
  if m.positionalOnly && (a = "help" || (Command.named.lookup a).isSome) then .unknownArgument
  else .unknownCommand

/-- Reads up to the name of a command. An argument in its place that is no option either is stray. -/
def read (m : Matches) : List String → Except Misuse Invocation
  | [] => do
    let m ← m.settle
    .error (if m.values.isEmpty then .nothing else .missingCommand)
  | a :: args =>
    let command := if m.positionalOnly || m.awaitsValue then none else Command.named.lookup a
    match command with
    | some reader => do
      let command ← reader args
      let m ← m.settle
      return ⟨(m.one? "config").getD defaultConfiguration, command⟩
    | none =>
      if !m.positionalOnly && !m.awaitsValue && a = "help" then .error (Command.readHelp args)
      else match m.argument shape a, m.positionalOnly || !a.startsWith "-" || a = "-" with
        | .ok m, _ => read m args
        | .error .unknownArgument, true => .error (stray m a)
        | .error e, _ => .error e

/-- The invocation that arguments, without the program's name, stand for. -/
def ofArguments (args : List String) : Except Misuse Invocation := read {} args

end Invocation

end FencedSessions.Cli

/-! Command-line arguments: options with a long name and perhaps a letter, positional arguments, and
`--`, after which everything is positional. What an argument brings is settled when the next one
begins, and the first thing amiss decides. -/

namespace FencedSessions.Cli

/-- Why arguments are refused, or what they ask for in place of a command. -/
inductive Misuse where
  /-- Help is asked for. -/
  | help
  /-- There is nothing to go by. -/
  | nothing
  | missingCommand
  | unknownCommand
  | unknownArgument
  /-- A positional argument is missing. -/
  | missingArgument
  /-- An option lacks its value. -/
  | missingValue
  | badValue
  /-- A flag has a value. -/
  | surplusValue
  /-- An option that may be given once is given again. -/
  | repeated
deriving DecidableEq, Repr

structure Parameter where
  /-- For an option, its long form without the hyphens. -/
  name : String
  letter : Option Char := none
  /-- A flag has no value. -/
  takesValue : Bool := true
  repeats : Bool := false
  /-- What is wrong with a value. -/
  refusal : String → Option Misuse := fun _ => none

/-- The arguments that a command takes. All positional ones are required. -/
structure Shape where
  options : List Parameter
  positionals : List Parameter

/-- What has been read of the arguments. -/
structure Matches where
  /-- Settled values, in order. -/
  values : List (String × List String) := []
  /-- The latest argument, with its value unless that is still to come. -/
  pending : Option (Parameter × List String) := none
  /-- How many positional arguments there were. -/
  position : Nat := 0
  /-- Whether `--` was met. -/
  positionalOnly : Bool := false

namespace Matches

/-- The values of a parameter. -/
def all (m : Matches) (name : String) : List String :=
  m.values.flatMap fun (n, vs) => if n = name then vs else []

def one? (m : Matches) (name : String) : Option String := (m.all name).head?

def isGiven (m : Matches) (name : String) : Bool := m.values.any fun (n, _) => n = name

/-- Whether the latest argument still lacks its value. -/
def awaitsValue (m : Matches) : Bool :=
  match m.pending with
  | some (p, vs) => p.takesValue && vs.isEmpty
  | none => false

/-- Takes an argument in, once it is known to be complete. -/
def accept (m : Matches) (p : Parameter) (vs : List String) : Except Misuse Matches :=
  if p.takesValue && vs.isEmpty then .error .missingValue
  else if !p.repeats && m.isGiven p.name then .error .repeated
  else match vs.findSome? p.refusal with
    | some misuse => .error misuse
    | none => .ok { m with values := m.values ++ [(p.name, vs)], pending := none }

def settle (m : Matches) : Except Misuse Matches :=
  match m.pending with
  | none => .ok m
  | some (p, vs) => m.accept p vs

/-- Begins an argument after settling the one before it. -/
def start (m : Matches) (p : Parameter) (vs : List String) : Except Misuse Matches := do
  let m ← m.settle
  return { m with pending := some (p, vs) }

/-- Takes in an argument that is complete in itself, after settling the one before it. -/
def complete (m : Matches) (p : Parameter) (vs : List String) : Except Misuse Matches := do
  let m ← m.settle
  m.accept p vs

/-- Help is asked for, if all is well so far. -/
def askHelp (m : Matches) : Except Misuse Matches := do
  let _ ← m.settle
  .error .help

/-- An option by its long name, perhaps with a value after an equals sign. -/
def long (shape : Shape) (m : Matches) (cs : List Char) : Except Misuse Matches :=
  let name := String.ofList (cs.takeWhile (· ≠ '='))
  let attached : Option String := match cs.dropWhile (· ≠ '=') with
    | _ :: v => some (String.ofList v)
    | [] => none
  match shape.options.find? fun p => p.name = name with
  | some p => match p.takesValue, attached with
    | true, some v => m.complete p [v]
    | true, none => m.start p []
    | false, some _ => .error .surplusValue
    | false, none => m.complete p []
  | none =>
    if name = "help" then
      match attached with
      | some _ => .error .surplusValue
      | none => m.askHelp
    else .error .unknownArgument

/-- Options by their letters. The rest after a letter whose option takes a value is that value. -/
def letters (shape : Shape) (m : Matches) : List Char → Except Misuse Matches
  | [] => .ok m
  | c :: cs =>
    match shape.options.find? fun p => p.letter = some c with
    | some p =>
      if p.takesValue then
        match cs with
        | [] => m.start p []
        | '=' :: v => m.complete p [String.ofList v]
        | v => m.complete p [String.ofList v]
      else do letters shape (← m.complete p []) cs
    | none => if c = 'h' then m.askHelp else .error .unknownArgument

/-- An argument that is not an option: a value that is awaited, or the next positional one. -/
def plain (shape : Shape) (m : Matches) (a : String) : Except Misuse Matches :=
  match m.pending, m.awaitsValue && !m.positionalOnly with
  | some (p, _), true => .ok { m with pending := some (p, [a]) }
  | _, _ =>
    match shape.positionals[m.position]? with
    | some p => do
      let m ← m.start p [a]
      return { m with position := m.position + 1 }
    | none => .error .unknownArgument

def argument (shape : Shape) (m : Matches) (a : String) : Except Misuse Matches :=
  if m.positionalOnly then m.plain shape a
  else match a.toList with
    | ['-', '-'] => .ok { m with positionalOnly := true }
    | '-' :: '-' :: cs => m.long shape cs
    | '-' :: c :: cs => m.letters shape (c :: cs)
    | _ => m.plain shape a

/-- The end of the arguments. -/
def finish (shape : Shape) (m : Matches) : Except Misuse Matches := do
  let m ← m.settle
  if m.position < shape.positionals.length then .error .missingArgument else return m

/-- Reads all arguments of a command. -/
def ofArguments (shape : Shape) (args : List String) : Except Misuse Matches := do
  let m ← args.foldlM (argument shape) {}
  m.finish shape

end Matches

end FencedSessions.Cli

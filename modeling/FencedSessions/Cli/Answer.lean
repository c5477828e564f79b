import FencedSessions.Cli.Arguments
import FencedSessions.Json.Printer
import FencedSessions.Orchestration.Outcome

/-! What a run of the program shows: an exit code, the text that it prints, and a message about what
went wrong. -/

namespace FencedSessions.Cli

structure Answer where
  code : Nat
  output : String := ""
  error : Option String := none
deriving DecidableEq, Repr

namespace Answer

/-- A value, printed over several lines. -/
def print (j : Json) : Answer := { code := 0, output := j.indented ++ "\n" }

/-- A run that fails after its arguments were read. -/
def fail (message : String) : Answer := { code := 1, error := some message }

/-- A run that computes an instant beyond the time line. -/
def crash : Answer := { code := 101 }

def ofStop : Stop → Answer
  | .error e => fail e.message
  | .overflow => crash

def helpText : String :=
  "Lock-guarded session orchestration\n\nUsage: keystone [OPTIONS] <COMMAND>\n\nCommands:\n" ++
  "  create      Create a new PENDING session\n" ++
  "  apply       Apply a lifecycle event (start, pause, complete, retry, ...)\n" ++
  "  checkpoint  Record a checkpoint\n" ++
  "  show        Print a session and its health score\n" ++
  "  list        List stored session ids\n" ++
  "  recover     Orphan the session if its worker has gone quiet\n" ++
  "  simulate    Run concurrent workers against one session and print the metrics\n\nOptions:\n" ++
  "  -c, --config <CONFIG>  Path to config file [default: keystone.toml]\n" ++
  "  -h, --help             Print help\n"

/-- Arguments that name no command: help goes to the output, everything else is an error. -/
def ofMisuse (m : Misuse) : Answer :=
  let wrong (message : String) : Answer := { code := 2, error := some message }
  match m with
  | .help => { code := 0, output := helpText }
  | .nothing => wrong helpText
  | .missingCommand => wrong "a command is required"
  | .unknownCommand => wrong "unrecognized command"
  | .unknownArgument => wrong "unexpected argument"
  | .missingArgument => wrong "a required argument is missing"
  | .missingValue => wrong "an option lacks its value"
  | .badValue => wrong "invalid value"
  | .surplusValue => wrong "a flag takes no value"
  | .repeated => wrong "an option is given more than once"

end Answer

end FencedSessions.Cli

import FencedSessions.FileTree
import FencedSessions.Json.Printer
import FencedSessions.Lease.Codec
import FencedSessions.Lease.FileStem

/-! The lease store in a directory: a state file and a lock file for each key. An operation holds
the lock file, reads the state, and puts a changed state in place by renaming a complete file. -/

namespace FencedSessions

/-- Whether an operation with this answer puts the state back. -/
def LeaseOp.writes : (op : LeaseOp) → op.Answer → Bool
  | .grant .., lease => Option.isSome lease
  | .extend .., lease => Option.isSome lease
  | .delete _, removed => removed
  | .get, _ => false
  | .enqueue .., _ => true
  | .position _, _ => true
  | .remove _, removed => removed
  | .queueLength, _ => true

namespace DirectoryLeases

/-- The path of a file of a key. The empty key has no name of its own, so its files stand beside
the directory and are named after it. The last name of the directory is taken to have no extension, as
`leases` has none: an extension of its own would be replaced by that of the file, and for the empty key
`a.b` would give `a.lock`, not `a.b.lock`. -/
def path (directory key extension : String) : String :=
  (if key = "" then directory else directory ++ "/" ++ fileStem key) ++ extension

def parse (text : String) : Except Stop KeyState :=
  (KeyState.reader.ofText text).mapError fun f => .error (Error.ofFlaw f)

/-- The stored state. A key without a file has the empty one. -/
def load (t : FileTree) (path : String) : Except Stop KeyState :=
  match t.read path with
  | .ok text => parse text
  | .error .notFound => .ok {}
  | .error f => .error f.toStop

/-- Puts a complete new state in place. A file whose renaming fails stays. -/
def store (t : FileTree) (directory key : String) (k : KeyState) : Except Stop Unit × FileTree :=
  let complete := path directory key ".json.tmp"
  match t.write complete k.toJson.text with
  | .error f => (.error f.toStop, t)
  | .ok t =>
    match t.rename complete (path directory key ".json") with
    | .error f => (.error f.toStop, t)
    | .ok t => (.ok (), t)

/-- An operation that computes an instant beyond the time line fails as a whole, as an
unavailable store. -/
def failed : Stop → Stop
  | .overflow => .error (.unavailable "lease store task failed: time out of range")
  | .error e => .error e

def run (t : FileTree) (directory : String) (now : Instant) (key : String) (op : LeaseOp) :
    Except Stop op.Answer × FileTree :=
  match t.touch (path directory key ".lock") with
  | .error f => (.error f.toStop, t)
  | .ok t =>
    match load t (path directory key ".json") with
    | .error e => (.error e, t)
    | .ok k =>
      match k.run key now op with
      | (.error e, _) => (.error (failed e), t)
      | (.ok answer, k) =>
        if op.writes answer then
          match store t directory key k with
          | (.ok (), t) => (.ok answer, t)
          | (.error e, t) => (.error e, t)
        else (.ok answer, t)

end DirectoryLeases

end FencedSessions

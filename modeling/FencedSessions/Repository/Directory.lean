import FencedSessions.FileTree
import FencedSessions.Json.Printer
import FencedSessions.Repository.Basic
import FencedSessions.Session.Codec

/-! The repository in a directory: a file for each session, put in place by renaming a complete
file. -/

namespace FencedSessions

open Json (Reader Record)

namespace StoredSession

def toJson (r : StoredSession) : Json :=
  .object [("fence", r.fence.toJson), ("session", r.session.toJson)]

def record : Record StoredSession :=
  Record.build StoredSession.mk
    |>.andField (Record.field "fence" Fence.reader)
    |>.andField (Record.field "session" Session.reader)

def reader : Reader StoredSession := record.reader

end StoredSession

namespace DirectoryRepository

def path (directory : String) (id : SessionId) : String := directory ++ "/" ++ id.text ++ ".json"

def find? (t : FileTree) (directory : String) (id : SessionId) :
    Except Error (Option StoredSession) :=
  match t.read (path directory id) with
  | .error .notFound => .ok none
  | .error f => .error (.system f.message)
  | .ok text => ((StoredSession.reader.ofText text).map some).mapError Error.ofFlaw

/-- Puts a complete record in place. A file whose renaming fails stays. -/
def store (t : FileTree) (directory : String) (r : StoredSession) : Except Error Unit × FileTree :=
  let target := path directory r.session.id
  let complete := target ++ ".tmp"
  match t.write complete r.toJson.indented with
  | .error f => (.error (.system f.message), t)
  | .ok t =>
    match t.rename complete target with
    | .error f => (.error (.system f.message), t)
    | .ok t => (.ok (), t)

def create (t : FileTree) (directory : String) (s : Session) : Except Error Nat × FileTree :=
  match find? t directory s.id with
  | .error e => (.error e, t)
  | .ok (some _) => (.error (.alreadyExists s.id), t)
  | .ok none =>
    match store t directory (.initial s) with
    | (.ok (), t) => (.ok 1, t)
    | (.error e, t) => (.error e, t)

def save (t : FileTree) (directory : String) (s : Session) (expected : Nat) (fence : Fence) :
    Except Error Nat × FileTree :=
  match find? t directory s.id with
  | .error e => (.error e, t)
  | .ok none => (.error (.notFound s.id), t)
  | .ok (some old) =>
    match old.check s.id expected fence with
    | .error e => (.error e, t)
    | .ok () =>
      match store t directory (.saved s expected fence) with
      | (.ok (), t) => (.ok (expected + 1), t)
      | (.error e, t) => (.error e, t)

/-- The id that a file name stands for. -/
def idOfName? (name : String) : Option SessionId :=
  let cs := name.toList
  let stem := cs.take (cs.length - 5)
  if cs.drop (cs.length - 5) = ".json".toList then SessionId.ofChars? stem else none

def run (t : FileTree) (directory : String) (op : RepositoryOp) :
    Except Error op.Answer × FileTree :=
  match op with
  | .load id => ((find? t directory id).map fun r => r.map (·.session), t)
  | .create s => create t directory s
  | .save s expected fence => save t directory s expected fence
  | .list =>
    match t.list directory with
    | .error f => (.error (.system f.message), t)
    | .ok names => (.ok (names.filterMap idOfName?), t)

end DirectoryRepository

end FencedSessions

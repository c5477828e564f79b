import FencedSessions.Error
import FencedSessions.Keyed

/-! A tree of text files and directories below one root, and the calls that stores make on it.
Paths are relative to the root, with a slash between their parts. -/

namespace FencedSessions

inductive FileEntry where
  | text (content : String)
  | directory
deriving DecidableEq, Repr

structure FileTree where
  entries : List (String × FileEntry) := []
deriving DecidableEq, Repr

namespace FileTree

/-- Why a call on a path fails. -/
inductive Fault where
  | notFound
  | occupied
  | notDirectory
  | isDirectory
  | nameTooLong
deriving DecidableEq, Repr

def Fault.message : Fault → String
  | .notFound => "No such file or directory (os error 2)"
  | .occupied => "File exists (os error 17)"
  | .notDirectory => "Not a directory (os error 20)"
  | .isDirectory => "Is a directory (os error 21)"
  | .nameTooLong => "File name too long (os error 36)"

def Fault.toStop (f : Fault) : Stop := .error (.system f.message)

/-- The longest name of a file, in bytes. -/
def nameLimit : Nat := 255

/-- The path of the directory that holds a path, empty for the root. -/
def parent (path : String) : String :=
  String.ofList ((path.toList.reverse.dropWhile (· ≠ '/')).drop 1).reverse

def name (path : String) : String :=
  String.ofList (path.toList.reverse.takeWhile (· ≠ '/')).reverse

def lookup? (t : FileTree) (path : String) : Option FileEntry := Keyed.find? t.entries path

/-- A path without the parts that lead nowhere. -/
def normal (path : String) : String :=
  let parts := (path.splitOn "/").filter fun p => p ≠ "" ∧ p ≠ "."
  (if path.startsWith "/" then "/" else "") ++ "/".intercalate parts

/-- The entry at a path, or why there is none. -/
def find (t : FileTree) (path : String) : Except Fault FileEntry :=
  if path.isEmpty then .ok .directory
  else if nameLimit < (name path).utf8ByteSize then .error .nameTooLong
  else match t.lookup? path with
    | some e => .ok e
    | none => match t.lookup? (parent path) with
      | some (.text _) => .error .notDirectory
      | _ => .error .notFound

def put (t : FileTree) (path : String) (e : FileEntry) : FileTree :=
  ⟨Keyed.put t.entries path e⟩

def erase (t : FileTree) (path : String) : FileTree :=
  ⟨Keyed.erase t.entries path⟩

@[simp] theorem lookup?_put_self (t : FileTree) (path : String) (e : FileEntry) :
    (t.put path e).lookup? path = some e := by simp [lookup?, put]

theorem lookup?_put_other (t : FileTree) {path other : String} (e : FileEntry)
    (h : other ≠ path) : (t.put path e).lookup? other = t.lookup? other :=
  Keyed.find?_put_other _ _ h

@[simp] theorem lookup?_erase_self (t : FileTree) (path : String) :
    (t.erase path).lookup? path = none := by simp [lookup?, erase]

theorem lookup?_erase_other (t : FileTree) {path other : String} (h : other ≠ path) :
    (t.erase path).lookup? other = t.lookup? other :=
  Keyed.find?_erase_other _ h

def read (t : FileTree) (path : String) : Except Fault String :=
  match t.find path with
  | .error f => .error f
  | .ok .directory => .error .isDirectory
  | .ok (.text s) => .ok s

/-- Whether a file can be written at a path. -/
def writable (t : FileTree) (path : String) : Except Fault Unit :=
  match t.find path with
  | .ok (.text _) => .ok ()
  | .ok .directory => .error .isDirectory
  | .error .notFound =>
    if parent path = "" ∨ t.lookup? (parent path) = some .directory then .ok ()
    else .error .notFound
  | .error f => .error f

/-- Makes sure that there is a file. -/
def touch (t : FileTree) (path : String) : Except Fault FileTree := do
  t.writable path
  match t.lookup? path with
  | some _ => return t
  | none => return t.put path (.text "")

def write (t : FileTree) (path content : String) : Except Fault FileTree := do
  t.writable path
  return t.put path (.text content)

/-- Moves a file, in place of the one at the new path. -/
def rename (t : FileTree) (source target : String) : Except Fault FileTree := do
  let content ← t.read source
  t.writable target
  return (t.erase source).put target (.text content)

def removeFile (t : FileTree) (path : String) : Except Fault FileTree := do
  let _ ← t.read path
  return t.erase path

def makeDirectory (t : FileTree) (path : String) : Except Fault FileTree :=
  match t.find path with
  | .ok _ => .error .occupied
  | .error .notFound => do
    t.writable path
    return t.put path .directory
  | .error f => .error f

/-- The ways from the root down to a path, shortest first. -/
def ancestors (path : String) : List String :=
  let cs := path.toList
  (List.range cs.length).filterMap fun i =>
    match cs.drop (i + 1) with
    | [] | '/' :: _ => some (String.ofList (cs.take (i + 1)))
    | _ => none

/-- Makes a directory and those above it, where they are missing. -/
def makeDirectories (t : FileTree) (path : String) : Except Fault FileTree :=
  (ancestors path).foldlM (fun t p =>
    match t.lookup? p with
    | some .directory => .ok t
    | some (.text _) => .error .notDirectory
    | none => t.makeDirectory p) t

/-- The names in a directory. -/
def list (t : FileTree) (path : String) : Except Fault (List String) :=
  match t.find path with
  | .error f => .error f
  | .ok (.text _) => .error .notDirectory
  | .ok .directory =>
    .ok ((t.entries.filter fun (p, _) => parent p = path).map fun (p, _) => name p)

/-- A difference between two trees. -/
inductive Change where
  | addDirectory (path : String)
  | write (path content : String)
  | remove (path : String)
deriving DecidableEq, Repr

/-- What to do to an old tree to get the new one. -/
def changes (old new : FileTree) : List Change :=
  let made := new.entries.filterMap fun (p, e) =>
    if old.lookup? p = some e then none
    else match e with
      | .directory => some (Change.addDirectory p)
      | .text s => some (Change.write p s)
  let gone := old.entries.filterMap fun (p, _) =>
    if (new.lookup? p).isSome then none else some (Change.remove p)
  made ++ gone

end FileTree

end FencedSessions

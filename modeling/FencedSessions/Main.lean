import FencedSessions.Cli.Process
import Std.Time.DateTime.Timestamp

/-! The program. It follows a process on the files and the clock of the machine: before each step
the files that the step may touch are read, and after it the changes are carried out, all under
the lock file of the session. -/

namespace FencedSessions.Cli

def currentInstant : IO Instant := do
  let t ← Std.Time.Timestamp.now
  return ⟨t.toNanosecondsSinceUnixEpoch.toInt⟩

/-- Adds what stands at a path to a tree. -/
def load (t : FileTree) (path : String) : IO FileTree := do
  let place := (← IO.currentDir) / path
  if ← place.isDir then return t.put path .directory
  else if ← place.pathExists then return t.put path (.text (← IO.FS.readFile place))
  else return t

def loadAll (t : FileTree) (paths : List String) : IO FileTree := paths.foldlM load t

/-- Adds a directory and the names of the files in it. -/
def loadNames (t : FileTree) (directory : String) : IO FileTree := do
  let place := (← IO.currentDir) / directory
  let entries ← place.readDir
  return entries.foldl (fun t e => t.put (directory ++ "/" ++ e.fileName) (.text "")) t

/-- Carries out a change. A file gets its new content all at once; an empty one is only made sure
of. -/
def carryOut (c : FileTree.Change) : IO Unit := do
  let here ← IO.currentDir
  match c with
  | .addDirectory path => IO.FS.createDirAll (here / path)
  | .write path "" => discard (IO.FS.Handle.mk (here / path) .append)
  | .write path content =>
    let complete := here / (path ++ ".new")
    IO.FS.writeFile complete content
    IO.FS.rename complete (here / path)
  | .remove path => IO.FS.removeFile (here / path)

/-- The files that the steps of a process may touch. -/
structure Reach where
  /-- The directories of both stores and those above them. -/
  directories : List String
  leases : String
  sessions : String
  subject : SessionId
  /-- Whether the names of all sessions are needed. -/
  listing : Bool

namespace Reach

def lockFile (r : Reach) : String := DirectoryLeases.path r.leases r.subject.text ".lock"

def files (r : Reach) : List String :=
  let session := DirectoryRepository.path r.sessions r.subject
  let lease := DirectoryLeases.path r.leases r.subject.text
  [r.lockFile, lease ".json", lease ".json.tmp", session, session ++ ".tmp"]

def read (r : Reach) : IO FileTree := do
  let t ← loadAll {} (r.directories ++ r.files)
  if r.listing then loadNames t r.sessions else return t

/-- Does something while no other process holds the session's lock file. A listing needs no lock. -/
def locked {α : Type} (r : Reach) (act : IO α) : IO α := do
  if r.listing then act
  else
    let handle ← IO.FS.Handle.mk ((← IO.currentDir) / r.lockFile) .append
    handle.lock
    try act finally handle.unlock

end Reach

/-- One step on the machine. -/
def stepNow (r : Reach) (started : Nat) (world : World) (rest : Procedure)
    (act : Process → IO Unit) (done : Answer → IO Unit) : IO Unit := do
  let files ← r.read
  let clock ← currentInstant
  let timer := max world.site.timer ((← IO.monoMsNow) - started)
  let site := { world.site with files, clock, timer, running := false, plan := [] }
  match Process.step ⟨{ world with site }, rest⟩ with
  | .ended a s =>
    (files.changes s.files).forM carryOut
    done a
  | .running p =>
    (files.changes p.world.site.files).forM carryOut
    act p

/-- Follows a process to its end. -/
partial def follow (r : Reach) (started : Nat) (p : Process) (done : Answer → IO Unit) :
    IO Unit := do
  let next ← IO.mkRef (pure () : IO Unit)
  r.locked (stepNow r started p.world p.rest
    (fun p => next.set do
      let elapsed := (← IO.monoMsNow) - started
      IO.sleep (p.world.site.timer - elapsed).toUInt32
      follow r started p done)
    (fun a => next.set (done a)))
  (← next.get)

/-- The name of this process in its leases. -/
def holderName : IO String := do
  let status ← try IO.FS.readFile "/proc/self/stat" catch _ => pure ""
  let number := status.takeWhile Char.isDigit
  if number.isEmpty then return "keystone-" ++ Text.numeral (← IO.rand 0 99999)
  else return "keystone-" ++ number.toString

/-- Sets up the stores of an invocation and follows it. -/
def invoke (i : Invocation) (done : Answer → IO Unit) : IO Unit := do
  let files ← load {} (FileTree.normal i.configuration)
  let created ← IO.rand 0 999999999998
  let m : Machine := { files, clock := ← currentInstant, created }
  match m.configuration (← holderName) i.configuration with
  | .error a => done a
  | .ok c =>
    let leases := FileTree.normal c.leasesDirectory
    let sessions := FileTree.normal c.sessionsDirectory
    let directories := FileTree.ancestors leases ++ FileTree.ancestors sessions
    let files ← loadAll {} directories
    match { m with files }.site c with
    | .error a => done a
    | .ok site =>
      (files.changes site.files).forM carryOut
      let r : Reach :=
        ⟨directories, leases, sessions, i.command.subject?.getD (.fresh (created + 1)),
          i.command = .list⟩
      follow r (← IO.monoMsNow) ⟨{ site }, .ofCommand c i.command⟩ done

end FencedSessions.Cli

open FencedSessions.Cli in
def main (args : List String) : IO UInt32 := do
  let code ← IO.mkRef (0 : UInt32)
  let done (a : Answer) : IO Unit := do
    IO.print a.output
    match a.error with
    | some message => IO.eprintln ("Error: " ++ message)
    | none => pure ()
    code.set a.code.toUInt32
  match Invocation.ofArguments args with
  | .error misuse => done (.ofMisuse misuse)
  | .ok i => invoke i done
  code.get

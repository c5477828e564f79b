import FencedSessions.Cli.Procedure

/-! A run of the program, one step at a time: it reads its arguments and its configuration, makes the
directories of its stores, and follows the procedure of its command. -/

namespace FencedSessions.Cli

structure Process where
  world : World
  rest : Procedure

/-- What a step leads to. -/
inductive Progress where
  | ended (a : Answer) (s : Site)
  | running (p : Process)

namespace Process

/-- The next step. Time passes when all tasks wait. -/
def step (p : Process) : Progress :=
  match p.rest with
  | .finish a => .ended a p.world.site
  | .call act next =>
    let (a, site) := act p.world.site
    .running ⟨{ p.world with site }, next a⟩
  | .spawn a next =>
    let (task, world) := p.world.spawn a
    .running ⟨world, next task⟩
  | .await task next =>
    match p.world.result? task with
    | some r => .running ⟨p.world, next r⟩
    | none => match p.world.advance with
      | some world => .running ⟨world, p.rest⟩
      | none => .ended .crash p.world.site

/-- Runs a process in at most `fuel` steps. -/
def run : (fuel : Nat) → Process → Answer × Site
  | 0, p => (.crash, p.world.site)
  | fuel + 1, p =>
    match p.step with
    | .ended a s => (a, s)
    | .running p => run fuel p

end Process

/-- What outlives a run: the files, the clock, and how many sessions were created. -/
structure Machine where
  files : FileTree := {}
  clock : Instant
  created : Nat := 0
deriving DecidableEq, Repr

namespace Machine

/-- How far the clock moves with every call to a store. -/
def callTime : Span := ⟨1000⟩

/-- The configuration at a path; without a file, the default one. -/
def configuration (m : Machine) (holder path : String) : Except Answer Configuration :=
  match m.files.read (FileTree.normal path) with
  | .error .notFound => .ok (.default holder)
  | .error .isDirectory =>
    .error (.fail ("Failed to read config file '" ++ path ++ "': " ++
      FileTree.Fault.isDirectory.message))
  | .error f => .error (.fail f.message)
  | .ok text => match Configuration.ofText? holder text with
    | some c => .ok c
    | none => .error (.fail "TOML parse error")

/-- The site of a run: one node, with stores in the directories of the configuration. -/
def site (m : Machine) (c : Configuration) : Except Answer Site :=
  let leases := FileTree.normal c.leasesDirectory
  let sessions := FileTree.normal c.sessionsDirectory
  match m.files.makeDirectories leases >>= fun t => t.makeDirectories sessions with
  | .error f => .error (.ofStop f.toStop)
  | .ok files => .ok {
      clock := m.clock
      running := true
      leases := .directory leases
      repository := .directory sessions
      files
      nodes := [{ settings := ⟨c.lock, c.breaker, c.orchestrator, c.health⟩ }]
      plan := [⟨"*", 0, World.patience, none, some callTime⟩]
      created := m.created }

/-- The run of an invocation. -/
def start (m : Machine) (holder : String) (i : Invocation) : Except Answer Process :=
  match m.configuration holder i.configuration with
  | .error a => .error a
  | .ok c => match m.site c with
    | .error a => .error a
    | .ok site => .ok ⟨{ site }, .ofCommand c i.command⟩

/-- Runs the program from its arguments to its end. -/
def run (m : Machine) (holder : String) (args : List String) : Answer × Machine :=
  match Invocation.ofArguments args with
  | .error misuse => (.ofMisuse misuse, m)
  | .ok i =>
    match m.start holder i with
    | .error a => (a, m)
    | .ok p =>
      let (a, s) := p.run World.patience
      (a, ⟨s.files, s.now, s.created⟩)

end Machine

end FencedSessions.Cli

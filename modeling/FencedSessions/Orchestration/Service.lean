import FencedSessions.Orchestration.Step

/-! What the service does without taking a lock: create a session, and look at stored ones. -/

namespace FencedSessions.Site

/-- Stores a new session. -/
def createSession (s : Site) (priority : Nat) (metadata : List (String × Json)) :
    Except Stop Session × Site :=
  let now := s.now
  let id := SessionId.fresh (s.created + 1)
  let session := { Session.create id priority now with metadata }
  match s.repo (.create session) with
  | (.error e, s) => (.error e, s)
  | (.ok version, s) =>
    (.ok { session with version }, { s with created := s.created + 1 }.emit (.created id now))

/-- The stored session, if there is one. -/
def snapshot (s : Site) (id : SessionId) : Except Stop (Option Session) × Site :=
  s.repo (.load id)

def listSessions (s : Site) : Except Stop (List SessionId) × Site := s.repo .list

/-- The health score of the stored session. -/
def health (s : Site) (n : Nat) (id : SessionId) : Except Stop (Option Float) × Site :=
  let now := s.now
  match s.repo (.load id) with
  | (.error e, s) => (.error e, s)
  | (.ok none, s) => (.ok none, s)
  | (.ok (some session), s) => (.ok (some (Health.score session now (s.settings n).health)), s)

end FencedSessions.Site

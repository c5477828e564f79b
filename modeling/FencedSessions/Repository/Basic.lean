import FencedSessions.Session.Basic

/-! Repositories of sessions. An existing session is only ever overwritten by a save, which must
know the stored version and may not bear a fence older than one accepted before. -/

namespace FencedSessions

inductive RepositoryOp where
  | load (id : SessionId)
  /-- Store a new session, at version one. -/
  | create (session : Session)
  /-- Overwrite a session, at the version after `expected`. -/
  | save (session : Session) (expected : Nat) (fence : Fence)
  | list
deriving DecidableEq, Repr

namespace RepositoryOp

abbrev Answer : RepositoryOp → Type
  | .load _ => Option Session
  | .create _ => Nat
  | .save .. => Nat
  | .list => List SessionId

end RepositoryOp

/-- A session with the highest fence accepted for it. -/
structure StoredSession where
  fence : Fence
  session : Session
deriving DecidableEq, Repr

namespace StoredSession

/-- A session as it is first stored. -/
def initial (s : Session) : StoredSession := ⟨.zero, { s with version := 1 }⟩

/-- Whether a write may replace what is stored. A stale fence is reported first. -/
def check (old : StoredSession) (id : SessionId) (expected : Nat) (fence : Fence) :
    Except Error Unit :=
  if fence < old.fence then .error (.staleFence id fence old.fence)
  else if old.session.version ≠ expected then
    .error (.versionConflict id expected old.session.version)
  else .ok ()

/-- What an accepted save stores. -/
def saved (s : Session) (expected : Nat) (fence : Fence) : StoredSession :=
  ⟨fence, { s with version := expected + 1 }⟩

end StoredSession

end FencedSessions

import FencedSessions.Keyed
import FencedSessions.Repository.Basic

/-! The repository in memory. -/

namespace FencedSessions

structure MemoryRepository where
  records : List (SessionId × StoredSession) := []
deriving DecidableEq, Repr

namespace MemoryRepository

def find? (m : MemoryRepository) (id : SessionId) : Option StoredSession :=
  Keyed.find? m.records id

def put (m : MemoryRepository) (id : SessionId) (r : StoredSession) : MemoryRepository :=
  ⟨Keyed.put m.records id r⟩

@[simp] theorem find?_put_self (m : MemoryRepository) (id : SessionId) (r : StoredSession) :
    (m.put id r).find? id = some r := by simp [find?, put]

theorem find?_put_other (m : MemoryRepository) {id other : SessionId} (r : StoredSession)
    (h : other ≠ id) : (m.put id r).find? other = m.find? other :=
  Keyed.find?_put_other _ _ h

def create (m : MemoryRepository) (s : Session) : Except Error Nat × MemoryRepository :=
  match m.find? s.id with
  | some _ => (.error (.alreadyExists s.id), m)
  | none => (.ok 1, m.put s.id (.initial s))

def save (m : MemoryRepository) (s : Session) (expected : Nat) (fence : Fence) :
    Except Error Nat × MemoryRepository :=
  match m.find? s.id with
  | none => (.error (.notFound s.id), m)
  | some old =>
    match old.check s.id expected fence with
    | .error e => (.error e, m)
    | .ok () => (.ok (expected + 1), m.put s.id (.saved s expected fence))

def run (m : MemoryRepository) (op : RepositoryOp) : Except Error op.Answer × MemoryRepository :=
  match op with
  | .load id => (.ok ((m.find? id).map (·.session)), m)
  | .create s => m.create s
  | .save s expected fence => m.save s expected fence
  | .list => (.ok (m.records.map (·.1)), m)

end MemoryRepository

end FencedSessions

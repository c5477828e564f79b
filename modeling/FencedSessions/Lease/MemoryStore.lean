import FencedSessions.Lease.Basic
import FencedSessions.Keyed

/-! The lease store in memory: the state of every key. A key that was never used has the empty
state. -/

namespace FencedSessions

structure MemoryLeases where
  keys : List (String × KeyState) := []
deriving DecidableEq, Repr

namespace MemoryLeases

def state (m : MemoryLeases) (key : String) : KeyState := (Keyed.find? m.keys key).getD {}

def setState (m : MemoryLeases) (key : String) (k : KeyState) : MemoryLeases :=
  ⟨Keyed.put m.keys key k⟩

def run (m : MemoryLeases) (now : Instant) (key : String) (op : LeaseOp) :
    Except Stop op.Answer × MemoryLeases :=
  let (answer, k) := (m.state key).run key now op
  (answer, m.setState key k)

/-- How many keys have a live lease. -/
def liveCount (m : MemoryLeases) (now : Instant) : Nat :=
  m.keys.countP fun (_, k) => (k.liveLease now).isSome

@[simp] theorem state_setState_self (m : MemoryLeases) (key : String) (k : KeyState) :
    (m.setState key k).state key = k := by
  simp [state, setState]

theorem state_setState_other (m : MemoryLeases) {key other : String} (k : KeyState)
    (h : other ≠ key) : (m.setState key k).state other = m.state other := by
  simp [state, setState, Keyed.find?_put_other _ _ h]

end MemoryLeases

end FencedSessions

import FencedSessions.Site.Basic

/-! The fair lock of a node, as far as each operation is a single call: renewing, releasing and
asking about leases. -/

namespace FencedSessions

namespace Site

/-- Extends the lease of a fence. -/
def renew (s : Site) (n : Nat) (key : String) (fence : Fence) (extension : Span) :
    Except Stop Lease × Site :=
  match s.guarded n key (.extend fence extension) with
  | (.ok (some lease), s) => (.ok lease, s)
  | (.ok none, s) => (.error (.error (.leaseLost key fence)), s)
  | (.error e, s) => (.error e, s)

/-- Deletes the lease of a fence, whatever the breaker says, and wakes the waiters. A stale release
changes nothing. -/
def release (s : Site) (n : Nat) (key : String) (fence : Fence) :
    Except Stop Unit × Site × List Effect :=
  match s.unguarded n key (.delete fence) with
  | (.ok _, s) => (.ok (), s, [.wake n key])
  | (.error e, s) => (.error e, s, [])

/-- The live lease, if it bears the fence. -/
def check (s : Site) (n : Nat) (key : String) (fence : Fence) : Except Stop Lease × Site :=
  match s.guarded n key .get with
  | (.ok (some lease), s) =>
    if lease.fence = fence then (.ok lease, s) else (.error (.error (.leaseLost key fence)), s)
  | (.ok none, s) => (.error (.error (.leaseLost key fence)), s)
  | (.error e, s) => (.error e, s)

def holder (s : Site) (n : Nat) (key : String) : Except Stop (Option Lease) × Site :=
  s.guarded n key .get

def queueLength (s : Site) (n : Nat) (key : String) : Except Stop Nat × Site :=
  s.guarded n key .queueLength

end Site

end FencedSessions

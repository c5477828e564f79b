/-! Instants on the UTC time line and lengths of time, in whole nanoseconds. The line is
bounded: it runs from the first day of year -262143 to the last nanosecond of year 262142, and
a sum that leaves it has no value. -/

namespace FencedSessions

/-- A length of time that is never negative. -/
structure Span where
  ns : Nat
deriving DecidableEq, Repr, Inhabited

namespace Span

def zero : Span := ⟨0⟩

def ofMillis (ms : Nat) : Span := ⟨ms * 1000000⟩

/-- The longest span a caller can name: 2⁶⁴ - 1 seconds and 999999999 nanoseconds. -/
def longest : Span := ⟨18446744073709551615 * 1000000000 + 999999999⟩

/-- The longest span that is added to an instant as it stands: 2⁶³ - 1 milliseconds. -/
def exactLimit : Nat := 9223372036854775807 * 1000000

/-- A hundred years of 365 days, the stand-in for every span beyond `exactLimit`. -/
def century : Nat := 36500 * 86400 * 1000000000

/-- What the span adds to an instant. -/
def offset (d : Span) : Int :=
  if d.ns ≤ exactLimit then d.ns else century

theorem offset_nonneg (d : Span) : 0 ≤ d.offset := by
  unfold offset
  split
  · exact Int.natCast_nonneg _
  · decide

end Span

/-- A point on the UTC time line, as nanoseconds after 1970-01-01T00:00:00Z. There are no leap seconds:
a time written with second 60 is the first instant of the next minute. -/
structure Instant where
  ns : Int
deriving DecidableEq, Repr, Inhabited

namespace Instant

instance : LT Instant := ⟨fun a b => a.ns < b.ns⟩
instance : LE Instant := ⟨fun a b => a.ns ≤ b.ns⟩
instance (a b : Instant) : Decidable (a < b) := inferInstanceAs (Decidable (a.ns < b.ns))
instance (a b : Instant) : Decidable (a ≤ b) := inferInstanceAs (Decidable (a.ns ≤ b.ns))

theorem lt_def {a b : Instant} : a < b ↔ a.ns < b.ns := Iff.rfl
theorem le_def {a b : Instant} : a ≤ b ↔ a.ns ≤ b.ns := Iff.rfl

theorem not_lt {a b : Instant} : ¬ a < b ↔ b ≤ a := Int.not_lt

/-- The later of two instants. -/
def latest (a b : Instant) : Instant := if a ≤ b then b else a

/-- The first instant of the line, -262143-01-01T00:00:00Z. -/
def first : Instant := ⟨-8334601228800 * 1000000000⟩

/-- The last instant of the line, +262142-12-31T23:59:59.999999999Z. -/
def last : Instant := ⟨8210266876799 * 1000000000 + 999999999⟩

/-- The instant `by` nanoseconds later, if the line holds it. -/
def shift? (t : Instant) (delta : Int) : Option Instant :=
  if first.ns ≤ t.ns + delta ∧ t.ns + delta ≤ last.ns then some ⟨t.ns + delta⟩ else none

theorem shift?_ns {t u : Instant} {delta : Int} (h : t.shift? delta = some u) :
    u.ns = t.ns + delta := by
  unfold shift? at h
  split at h
  · exact congrArg ns (Option.some.inj h).symm
  · cases h

/-- The instant a span later. -/
def after? (t : Instant) (d : Span) : Option Instant := t.shift? d.offset

theorem le_after {t u : Instant} {d : Span} (h : t.after? d = some u) : t ≤ u := by
  have hns := shift?_ns h
  have hoffset := d.offset_nonneg
  exact le_def.mpr (by omega)

/-- Whole milliseconds from `start` to `t`, rounded toward zero. -/
def millisSince (t start : Instant) : Int := Int.tdiv (t.ns - start.ns) 1000000

end Instant

end FencedSessions

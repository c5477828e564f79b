import FencedSessions.Json.Record

/-! Fence tokens. Every grant of a resource bears a larger token than the grants before it. -/

namespace FencedSessions

/-- A token. Its number has no upper bound: that a 64-bit counter runs out is left out here, as it is
for the other numbers that only ever grow. -/
structure Fence where
  value : Nat
deriving DecidableEq, Repr, Inhabited

namespace Fence

/-- The token before every issued one. -/
def zero : Fence := ⟨0⟩

def next (f : Fence) : Fence := ⟨f.value + 1⟩

instance : LT Fence := ⟨fun a b => a.value < b.value⟩
instance : LE Fence := ⟨fun a b => a.value ≤ b.value⟩
instance (a b : Fence) : Decidable (a < b) := inferInstanceAs (Decidable (a.value < b.value))
instance (a b : Fence) : Decidable (a ≤ b) := inferInstanceAs (Decidable (a.value ≤ b.value))

theorem lt_def {a b : Fence} : a < b ↔ a.value < b.value := Iff.rfl
theorem le_def {a b : Fence} : a ≤ b ↔ a.value ≤ b.value := Iff.rfl

theorem lt_next (f : Fence) : f < f.next := Nat.lt_succ_self f.value

def text (f : Fence) : String := Text.numeral f.value

def toJson (f : Fence) : Json := .nat f.value

def reader : Json.Reader Fence := Json.Reader.word64.map Fence.mk

end Fence

end FencedSessions

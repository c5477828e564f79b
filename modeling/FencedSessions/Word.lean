/-! Sizes of machine words: how many values each of them has. -/

namespace FencedSessions.Word

/-- Values of eight bits. -/
def size8 : Nat := 256

/-- Values of 32 bits. -/
def size32 : Nat := 4294967296

/-- Values of 64 bits. -/
def size64 : Nat := 18446744073709551616

/-- Half of `size64`: a signed 64-bit word lies from minus this to below this. -/
def half64 : Nat := 9223372036854775808

/-- Whether an integer is a signed 64-bit word. -/
def isSigned64 (n : Int) : Bool := -half64 ≤ n && n < half64

end FencedSessions.Word

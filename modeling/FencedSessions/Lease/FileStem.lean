import FencedSessions.Text.Digits

/-! File names for resource keys. ASCII letters, digits, hyphens and underscores stand for
themselves; any other character becomes a percent sign and its code in hexadecimal. -/

namespace FencedSessions

/-- Whether a character stands for itself in a file name. -/
def isStemChar (c : Char) : Bool := c.isAlphanum || c = '-' || c = '_'

def fileStem (key : String) : String :=
  String.ofList (key.toList.flatMap fun c =>
    if isStemChar c then [c] else '%' :: Text.hex c.toNat)

end FencedSessions

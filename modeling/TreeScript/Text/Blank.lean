import TreeScript.Text.Ranges

set_option autoImplicit false

/- White space: the characters that may stand around a numeral. -/
namespace TreeScript.Text

/-- Code points with the property White_Space. -/
def blankRanges : Array (Nat × Nat) := #[
  (0x9, 0xD), (0x20, 0x20), (0x85, 0x85), (0xA0, 0xA0), (0x1680, 0x1680), (0x2000, 0x200A),
  (0x2028, 0x2029), (0x202F, 0x202F), (0x205F, 0x205F), (0x3000, 0x3000)]

def isBlank (c : Char) : Bool := inRanges blankRanges c

end TreeScript.Text

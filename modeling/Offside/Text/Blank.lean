import Offside.Text.Ranges

/-!
# Text/Blank — the code points that are white space
-/

namespace Offside.Text

/-- The code points with the Unicode property White_Space. -/
def blankRanges : Ranges :=
  [(0x9, 0xD), (0x20, 0x20), (0x85, 0x85), (0xA0, 0xA0), (0x1680, 0x1680), (0x2000, 0x200A),
   (0x2028, 0x2029), (0x202F, 0x202F), (0x205F, 0x205F), (0x3000, 0x3000)]

/-- White space in the sense of Unicode: the property White_Space. -/
def isBlank (c : Char) : Bool := blankRanges.covers c.toNat

end Offside.Text

import Hypertag.Text.Basic

/-!
# White space

The blank characters: the ASCII controls from tab to carriage return, the space separators, the
line and paragraph separators, and the byte order mark. All of them are single units.
-/

namespace Hypertag.Text

def isBlank (u : UInt16) : Bool :=
  (0x09 ≤ u && u ≤ 0x0D) || u = 0x20 || u = 0xA0 || u = 0x1680 || (0x2000 ≤ u && u ≤ 0x200A) ||
  u = 0x2028 || u = 0x2029 || u = 0x202F || u = 0x205F || u = 0x3000 || u = 0xFEFF

/-- Cuts blanks off both ends. -/
def trim (t : Text) : Text :=
  ((t.dropWhile isBlank).reverse.dropWhile isBlank).reverse

end Hypertag.Text

import Glyph.Text.CodeRange

/-!
# White space

The characters of the property White_Space, and texts without those at their ends. The table is that
of Unicode 14.
-/

namespace Glyph.Text

/-- The white space beyond ASCII. -/
def spaceRanges : List CodeRange := [
  (0x85, 0x85), (0xA0, 0xA0), (0x1680, 0x1680), (0x2000, 0x200A), (0x2028, 0x2029),
  (0x202F, 0x202F), (0x205F, 0x205F), (0x3000, 0x3000)]

def isSpace (c : Char) : Bool :=
  if c.toNat < 0x80 then c = ' ' || CodeRange.covers (0x09, 0x0D) c.toNat
  else CodeRange.anyCovers spaceRanges c.toNat

def trim (cs : List Char) : List Char :=
  ((cs.dropWhile isSpace).reverse.dropWhile isSpace).reverse

end Glyph.Text

import LayoutMarkup.Text.Glyph

/-!
# Text/Space — white space of Unicode

The characters with the property White_Space.  Values and arguments are trimmed of them; the blanks
that separate tokens and words are the fewer ones of ASCII (`Bytes.isBlank`).
-/

namespace LayoutMarkup

/-- Is the character white space? -/
def isSpace (c : Char) : Bool :=
  let n := c.toNat
  (0x09 ≤ n && n ≤ 0x0D) || n == 0x20 || n == 0x85 || n == 0xA0 || n == 0x1680 ||
    (0x2000 ≤ n && n ≤ 0x200A) || n == 0x2028 || n == 0x2029 || n == 0x202F || n == 0x205F ||
    n == 0x3000

/-- The text without the white space at its ends. -/
def Bytes.trimSpace (s : Bytes) : Bytes := s.trimChars isSpace

end LayoutMarkup

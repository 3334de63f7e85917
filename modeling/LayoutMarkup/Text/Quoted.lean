import LayoutMarkup.Text.Glyph
import LayoutMarkup.Text.Printable

/-!
# Text/Quoted — text inside messages

A message shows a piece of the document between quotes.  Printable characters stand for themselves,
the quote and the backslash take a backslash, and everything else is spelled by an escape: a letter
for the common controls, two hexadecimal digits for the rest of ASCII and for stray bytes, four or
eight for other characters.
-/

namespace LayoutMarkup

namespace Quoted

/-- The last `width` hexadecimal digits of a number, in lower case. -/
def hex (width n : Nat) : Bytes :=
  (List.range width).reverse.map fun i => (Nat.digitChar (n / Nat.pow 16 i % 16)).toUInt8

/-- A character inside quotes of the kind `quote`. -/
def char (quote c : Char) : Bytes :=
  if c = quote ∨ c = '\\' then Bytes.utf8 "\\" ++ String.utf8EncodeChar c
  else if isPrintable c then String.utf8EncodeChar c
  else match c.toNat with
    | 0x07 => Bytes.utf8 "\\a"
    | 0x08 => Bytes.utf8 "\\b"
    | 0x0C => Bytes.utf8 "\\f"
    | 0x0A => Bytes.utf8 "\\n"
    | 0x0D => Bytes.utf8 "\\r"
    | 0x09 => Bytes.utf8 "\\t"
    | 0x0B => Bytes.utf8 "\\v"
    | n =>
      if n < 0x80 then Bytes.utf8 "\\x" ++ hex 2 n
      else if n < 0x10000 then Bytes.utf8 "\\u" ++ hex 4 n
      else Bytes.utf8 "\\U" ++ hex 8 n

/-- A glyph inside double quotes; a stray byte keeps its value. -/
def glyph : Glyph → Bytes
  | .char c => char '"' c
  | .stray b => Bytes.utf8 "\\x" ++ hex 2 b.toNat

end Quoted

/-- A text between double quotes. -/
def Bytes.quoted (s : Bytes) : Bytes :=
  Bytes.utf8 "\"" ++ s.glyphs.flatMap Quoted.glyph ++ Bytes.utf8 "\""

/-- A single glyph between apostrophes; a stray byte is shown as U+FFFD. -/
def Glyph.quoted (g : Glyph) : Bytes :=
  Bytes.utf8 "'" ++ Quoted.char '\'' g.shown ++ Bytes.utf8 "'"

end LayoutMarkup

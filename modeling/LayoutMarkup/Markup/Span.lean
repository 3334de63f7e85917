import LayoutMarkup.Text.Glyph

/-!
# Markup/Span — stretches of a document

A span says where in a document something stands: by offset, and by line and column for a reader.
Offset and length count bytes, columns count glyphs, lines and columns begin with 1.
-/

namespace LayoutMarkup

/-- A stretch of a document. -/
structure Span where
  offset : Int
  line : Int
  column : Int
  length : Int
  deriving DecidableEq, Repr

namespace Span

/-- Is the span no place at all?  Lines of a document are numbered from 1. -/
def isUnset (s : Span) : Bool := s.line == 0

/-- The span of at most `length` bytes at an offset, both cut off at the end of the document. -/
def locate (src : Bytes) (offset length : Nat) : Span :=
  let before := src.take offset
  let line : Bytes := (before.reverse.takeWhile (· != '\n'.toUInt8)).reverse
  { offset := before.length
    line := before.count '\n'.toUInt8 + 1
    column := line.glyphs.length + 1
    length := min length (src.length - offset) }

end Span

/-! ## Snippets -/

/-- A byte that continues a character and begins none. -/
def isContinuation (b : UInt8) : Bool := b &&& 0xC0 == 0x80

/-- The largest offset up to a given one where the text is not in the middle of a character. -/
def Bytes.boundary (s : Bytes) : Nat → Nat
  | 0 => 0
  | n + 1 => if (s.drop (n + 1)).head?.any isContinuation then boundary s n else n + 1

/-- The number of bytes of a line that a snippet shows. -/
def snippetLength : Nat := 32

/-- What a message shows of a document: the rest of the line from an offset on, cut at a boundary
between characters when it is long. -/
def snippet (src : Bytes) (offset : Nat) : Bytes :=
  let line : Bytes := (src.drop offset).takeWhile (· != '\n'.toUInt8)
  let shown : Bytes :=
    if line.length > snippetLength then line.take (line.boundary snippetLength) ++ Bytes.utf8 "..."
    else line
  shown.trimEnd (· == '\r'.toUInt8)

end LayoutMarkup

import LayoutMarkup.Markup.Span

/-!
# Markup/Excerpt — the lines around an error

An excerpt holds the numbered lines of a document near a span, and can point at the span with a line
of carets:

        <Bar></Baz>
             ^^^^^^
-/

namespace LayoutMarkup

/-- A numbered line of a document. -/
structure NumberedLine where
  number : Int
  text : Bytes
  deriving DecidableEq, Repr

/-- Some lines of a document, and a place among them. -/
structure Excerpt where
  lines : List NumberedLine
  line : Int
  column : Int
  length : Int
  deriving DecidableEq, Repr

namespace Excerpt

/-- The value of a line number computed in signed arithmetic of 64 bits. -/
def wrap (n : Int) : Int := n.bmod (Nat.pow 2 64)

/-- The lines of a document with numbers in the given range, without carriage returns at their
ends. -/
def select (src : Bytes) (first last : Int) : List NumberedLine :=
  (src.lines.zipIdx 1).filterMap fun (text, number) =>
    if first ≤ number ∧ number ≤ last then some ⟨number, text.trimEnd (· == '\r'.toUInt8)⟩ else none

/-- The lines at most `radius` away from a span; none if the span is no place. -/
def around? (src : Bytes) (span : Span) (radius : Int) : Option Excerpt :=
  if span.isUnset then none
  else some
    { lines := select src (wrap (span.line - radius)) (wrap (span.line + radius))
      line := span.line
      column := span.column
      length := span.length }

/-- What stands in the caret line below a glyph: tabs are kept. -/
def blankFor : Glyph → UInt8
  | .char '\t' => '\t'.toUInt8
  | _ => ' '.toUInt8

/-- The line of the place and, below it, carets at the column; empty if the line is not there. -/
def caret (x : Excerpt) : Bytes :=
  match x.lines.find? (·.number == x.line) with
  | none => []
  | some l =>
    l.text ++ Bytes.utf8 "\n" ++ (l.text.glyphs.take (x.column - 1).toNat).map blankFor ++
      List.replicate (max x.length 1).toNat '^'.toUInt8

end Excerpt

end LayoutMarkup

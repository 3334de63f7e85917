import LayoutMarkup.Text.Line

/-!
# Canonical/Lines — blocks of lines moved to a depth

The first line of a block is moved to a depth as it is.  Of the lines after it, the blanks that all
of them begin with give way to the indentation of that depth, so that they keep their places
relative to each other; blank lines become empty.
-/

namespace LayoutMarkup

namespace Canonical

/-- Blanks that indent a line. -/
def isIndent (b : UInt8) : Bool := b == ' '.toUInt8 || b == '\t'.toUInt8

/-- Is there nothing on the line? -/
def isBlankLine (line : Bytes) : Bool := line.all Bytes.isBlank

/-- How far a line is indented. -/
def indentation (line : Bytes) : Nat := (line.takeWhile isIndent).length

/-- How far all lines with something on them are indented. -/
def commonIndentation (lines : List Bytes) : Nat :=
  ((lines.filter (!isBlankLine ·)).map indentation).min?.getD 0

/-- A line after the first one, moved to a depth in place of `common` blanks of its indentation. -/
def moveLine (depth common : Nat) (line : Bytes) : Line :=
  if isBlankLine line then .blank else .indented depth (line.drop common)

/-- A block of lines moved to a depth. -/
def moveLines (depth : Nat) (block : Bytes) : List Line :=
  match block.lines with
  | [] => []
  | first :: rest => .indented depth first :: rest.map (moveLine depth (commonIndentation rest))

end Canonical

end LayoutMarkup

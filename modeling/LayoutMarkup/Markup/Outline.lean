import LayoutMarkup.Markup.Node
import LayoutMarkup.Text.Glyph
import LayoutMarkup.Text.Line

/-!
# Markup/Outline — the elements around a place

The elements that are open at a place form a chain, outermost first.  A chain is shown in two ways:
as a path of tags, and as an outline, a small document of its own

    <Outer>
        <Inner key="value">...</Inner>
    </Outer>

in which an ellipsis marks the place.
-/

namespace LayoutMarkup

/-- An element as its start tag presents it. -/
structure StartTag where
  name : Bytes
  attributes : List Attribute
  deriving DecidableEq, Repr

namespace Outline

/-! ## The path -/

/-- A name without what stands up to its first colon. -/
def localName (name : Bytes) : Bytes :=
  match name.breakOn? (Bytes.utf8 ":") with
  | some (_, after) => after
  | none => name

/-- The path of a chain: the local names, each after a slash, where they are not empty. -/
def path : List StartTag → Bytes
  | [] => []
  | chain =>
    let names := (chain.map fun t => localName t.name).filter (!·.isEmpty)
    Bytes.utf8 "/" ++ (Bytes.utf8 "/").intercalate names

/-! ## The outline -/

/-- A list of attributes with one more: a key that is there already takes the new value. -/
def put (attributes : List Attribute) (a : Attribute) : List Attribute :=
  if attributes.any (·.key == a.key) then attributes.map fun b => if b.key = a.key then a else b
  else attributes ++ [a]

/-- Can the character stand in an outline? -/
def isAllowed (c : Char) : Bool :=
  let n := c.toNat
  n == 0x09 || n == 0x0A || n == 0x0D || (0x20 ≤ n && n ≤ 0xD7FF) || (0xE000 ≤ n && n ≤ 0xFFFD) ||
    0x10000 ≤ n

/-- A glyph inside an attribute value of an outline. -/
def escape : Glyph → Bytes
  | .char '&' => Bytes.utf8 "&amp;"
  | .char '<' => Bytes.utf8 "&lt;"
  | .char '>' => Bytes.utf8 "&gt;"
  | .char '\'' => Bytes.utf8 "&apos;"
  | .char '"' => Bytes.utf8 "&quot;"
  | .char c => String.utf8EncodeChar (if isAllowed c then c else '�')
  | .stray _ => String.utf8EncodeChar '�'

/-- An attribute in an outline. -/
def written (a : Attribute) : Bytes :=
  Bytes.utf8 " " ++ a.key ++ Bytes.utf8 "=\"" ++ a.value.glyphs.flatMap escape ++ Bytes.utf8 "\""

/-- The start tag of an element in an outline; every key occurs once. -/
def opening (t : StartTag) : Bytes :=
  Bytes.utf8 "<" ++ t.name ++ (t.attributes.foldl put []).flatMap written ++ Bytes.utf8 ">"

/-- The closing tag of an element in an outline. -/
def closing (t : StartTag) : Bytes := Bytes.utf8 "</" ++ t.name ++ Bytes.utf8 ">"

/-- The lines of the outline of a chain at a depth. -/
def lines (depth : Nat) : List StartTag → List Line
  | [] => []
  | [t] => [.indented depth (opening t ++ Bytes.utf8 "..." ++ closing t)]
  | t :: u :: chain =>
    .indented depth (opening t) :: (lines (depth + 1) (u :: chain) ++ [.indented depth (closing t)])

/-- The outline of a chain. -/
def render (chain : List StartTag) : Bytes := Line.renderAll (Bytes.utf8 "    ") (lines 0 chain)

end Outline

end LayoutMarkup

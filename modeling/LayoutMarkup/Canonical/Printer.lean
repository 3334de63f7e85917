import LayoutMarkup.Canonical.Inline
import LayoutMarkup.Canonical.Lines

/-!
# Canonical/Printer — documents in canonical form

Siblings are printed as items, one below the other: blocks (elements on lines of their own),
comments, and runs (stretches of text with the elements in it, moved as one block of lines).  Inside
an element a blank line comes before every comment, and behind a start tag of more than one line.
-/

namespace LayoutMarkup

namespace Canonical

/-! ## Items -/

/-- A unit of output among siblings. -/
inductive Item where
  /-- An element, given by its lines. -/
  | block (lines : List Line)
  | comment (body : Bytes)
  /-- Text and the elements in it. -/
  | run (nodes : List Node)
  deriving Repr

namespace Item

/-- Is the item a comment? -/
def isComment : Item → Bool
  | comment _ => true
  | _ => false

/-- What a node that is part of no run becomes; it comes with its lines as a block. -/
def alone? : Node × List Line → Option Item
  | (.element _ _ _ _, lines) => some (block lines)
  | (.comment body, _) => some (comment body)
  | (.text _, _) => none

/-- The items of nodes that stand together: a run if there is any wording, else the blanks are
dropped and each element stands alone. -/
def ofGroup (group : List (Node × List Line)) : List Item :=
  if group.any (·.1.isWording) then [run (group.map Prod.fst)] else group.filterMap alone?

/-- The items of siblings, each of which comes with its lines as a block.  Those that flow into each
other stand together. -/
def ofSiblings (v : Vocabulary) (siblings : List (Node × List Line)) : List Item :=
  (siblings.splitBy fun a b => isInline v a.1 && isInline v b.1).flatMap ofGroup

/-- The lines of an item at a depth. -/
def lines (v : Vocabulary) (depth : Nat) : Item → List Line
  | block lines => lines
  | comment body => [.indented depth (commentText body)]
  | run nodes => moveLines depth (Bytes.trim Bytes.isBlank (inlineAll v nodes))

/-- Items one below the other.  With `leading` there is a blank line before the first one, with
`spaced` before every comment. -/
def stack (v : Vocabulary) (depth : Nat) (leading spaced : Bool) : List Item → List Line
  | [] => []
  | i :: items =>
    (if leading || (spaced && i.isComment) then [.blank] else []) ++
      (i.lines v depth ++ stack v depth false spaced items)

end Item

/-! ## Elements -/

/-- The lines of several attributes, one level below their tag; the last one ends with what closes
the tag. -/
def attributeLines (v : Vocabulary) (depth : Nat) (closing : Bytes) : List Attribute → List Line
  | [] => []
  | [a] => [.indented (depth + 1) (attributeText v a ++ closing)]
  | a :: b :: attributes =>
    .indented (depth + 1) (attributeText v a) :: attributeLines v depth closing (b :: attributes)

/-- The lines of a start tag: a single attribute stands behind the name, more of them on lines of
their own. -/
def tagLines (v : Vocabulary) (depth : Nat) (name : Bytes) (attributes : List Attribute)
    (closing : Bytes) : List Line :=
  if attributes.length ≤ 1 then [.indented depth (inlineTag v name attributes ++ closing)]
  else
    .indented depth (Bytes.utf8 "<" ++ name) ::
      attributeLines v depth closing (sortAttributes attributes)

/-- An element on a single line, with its content between the tags. -/
def oneLine (v : Vocabulary) (depth : Nat) (name : Bytes) (attributes : List Attribute)
    (content : Bytes) : List Line :=
  [.indented depth (inlineTag v name attributes ++ Bytes.utf8 ">" ++ content ++ closingTag name)]

/-- An element with lines between its tags. -/
def enclosed (v : Vocabulary) (depth : Nat) (name : Bytes) (attributes : List Attribute)
    (content : List Line) : List Line :=
  tagLines v depth name attributes (Bytes.utf8 ">") ++
    (content ++ [.indented depth (closingTag name)])

/-- An element with nothing in it. -/
def hollow (v : Vocabulary) (depth : Nat) (name : Bytes) (attributes : List Attribute) :
    List Line :=
  if attributes.length ≤ 1 then tagLines v depth name attributes (Bytes.utf8 "/>")
  else tagLines v depth name attributes [] ++ [.indented depth (Bytes.utf8 "/>")]

/-- The children of an element, one below the other. -/
def stacked (v : Vocabulary) (depth : Nat) (leading : Bool) (children : List (Node × List Line)) :
    List Line :=
  Item.stack v depth leading true (Item.ofSiblings v children)

mutual

/-- The lines of an element at a depth. -/
def block (v : Vocabulary) (depth : Nat) : Node → List Line
  | .text _ | .comment _ => []
  | .element name attributes children selfClosing =>
    let multi := decide (1 < attributes.length)
    if !multi && isVerbatim v name children then
      moveLines depth (inline v (.element name attributes children selfClosing))
    else match Node.significant children, multi with
      | [], _ => hollow v depth name attributes
      | [.comment body], false => oneLine v depth name attributes (commentText body)
      | [.text raw], false => oneLine v depth name attributes raw.collapse
      | [.text raw], true =>
        enclosed v depth name attributes
          (if v.rawText.has name then stacked v (depth + 1) true (siblings v (depth + 1) children)
          else [.blank, .indented (depth + 1) raw.collapse])
      | _, multi =>
        enclosed v depth name attributes
          (stacked v (depth + 1) multi (siblings v (depth + 1) children))

/-- Nodes with their lines at a depth. -/
def siblings (v : Vocabulary) (depth : Nat) : List Node → List (Node × List Line)
  | [] => []
  | n :: nodes => (n, block v depth n) :: siblings v depth nodes

end

/-! ## Documents -/

/-- The lines of a document. -/
def documentLines (v : Vocabulary) (d : Document) : List Line :=
  Item.stack v 0 false false (Item.ofSiblings v (siblings v 0 d))

/-- How documents are printed. -/
structure Style where
  vocabulary : Vocabulary
  /-- The indentation of one level. -/
  indent : Bytes
  deriving DecidableEq, Repr

/-- The canonical form of a document; it has at least one line. -/
def print (s : Style) (d : Document) : Bytes :=
  match documentLines s.vocabulary d with
  | [] => Bytes.utf8 "\n"
  | lines => Line.renderAll s.indent lines

end Canonical

end LayoutMarkup

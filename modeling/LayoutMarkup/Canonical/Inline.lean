import LayoutMarkup.Canonical.Value

/-!
# Canonical/Inline — running text

Text and the elements that stand in it are written as they are: only attributes come in canonical
form and order, and an element without significant children becomes a single tag.
-/

namespace LayoutMarkup

/-! ## What can stand in running text -/

mutual

/-- Is the node a comment, or is there one inside it? -/
def Node.hasComment : Node → Bool
  | .element _ _ children _ => Node.anyHasComment children
  | .text _ => false
  | .comment _ => true

/-- Is there a comment among the nodes or inside them? -/
def Node.anyHasComment : List Node → Bool
  | [] => false
  | n :: nodes => n.hasComment || Node.anyHasComment nodes

end

namespace Canonical

/-- Does the node flow with the text around it? -/
def isInline (v : Vocabulary) : Node → Bool
  | .text _ => true
  | .element name attributes children selfClosing =>
    v.rawText.has name && !(Node.element name attributes children selfClosing).hasComment
  | .comment _ => false

/-- Is an element with this name and these children running text as a whole? -/
def isVerbatim (v : Vocabulary) (name : Bytes) (children : List Node) : Bool :=
  v.rawText.has name && children.all (isInline v) && children.any Node.isWording

/-! ## Writing it -/

/-- Puts an attribute before the first one whose key is not smaller. -/
def placeAttribute (a : Attribute) : List Attribute → List Attribute
  | [] => [a]
  | b :: attributes =>
    if a.key ≤ b.key then a :: b :: attributes else b :: placeAttribute a attributes

/-- Attributes in the order of their keys; those with the same key stay in order. -/
def sortAttributes (attributes : List Attribute) : List Attribute :=
  attributes.foldr placeAttribute []

/-- An attribute in canonical form. -/
def attributeText (v : Vocabulary) (a : Attribute) : Bytes :=
  a.key ++ Bytes.utf8 "=\"" ++ value v a ++ Bytes.utf8 "\""

/-- A comment with its delimiters. -/
def commentText (body : Bytes) : Bytes := Bytes.utf8 "<!--" ++ body ++ Bytes.utf8 "-->"

/-- A closing tag. -/
def closingTag (name : Bytes) : Bytes := Bytes.utf8 "</" ++ name ++ Bytes.utf8 ">"

/-- The beginning of a start tag on one line, up to its last attribute. -/
def inlineTag (v : Vocabulary) (name : Bytes) (attributes : List Attribute) : Bytes :=
  Bytes.utf8 "<" ++ name ++
    (sortAttributes attributes).flatMap fun a => Bytes.utf8 " " ++ attributeText v a

mutual

/-- A node in running text. -/
def inline (v : Vocabulary) : Node → Bytes
  | .text raw => raw
  | .comment body => commentText body
  | .element name attributes children _ =>
    inlineTag v name attributes ++
      if (Node.significant children).isEmpty then Bytes.utf8 "/>"
      else Bytes.utf8 ">" ++ inlineAll v children ++ closingTag name

/-- Nodes in running text. -/
def inlineAll (v : Vocabulary) : List Node → Bytes
  | [] => []
  | n :: nodes => inline v n ++ inlineAll v nodes

end

end Canonical

end LayoutMarkup

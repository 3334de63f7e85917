import LayoutMarkup.Text.Bytes

/-!
# Markup/Node — documents as trees

A document is a list of nodes.  Text and comments keep their bytes exactly; an element keeps its
attributes in the order they were written, with their values as they stand between the quotes.
-/

namespace LayoutMarkup

/-- An attribute of an element, its value as it stands between the quotes. -/
structure Attribute where
  key : Bytes
  value : Bytes
  deriving DecidableEq, Repr

/-- A node of a document. -/
inductive Node where
  /-- An element with what it contains.  A `selfClosing` one was written as a single tag. -/
  | element (name : Bytes) (attributes : List Attribute) (children : List Node) (selfClosing : Bool)
  /-- Character data. -/
  | text (raw : Bytes)
  /-- A comment, given by what stands between its delimiters. -/
  | comment (body : Bytes)
  deriving Repr

/-- A document: its nodes at the top level. -/
abbrev Document := List Node

mutual

/-- Are two nodes the same? -/
def Node.decEq : (m n : Node) → Decidable (m = n)
  | .element name as ms b, .element name' as' ns b' =>
    have := Node.decEqAll ms ns
    decidable_of_decidable_of_iff (p := name = name' ∧ as = as' ∧ ms = ns ∧ b = b') (by simp)
  | .text raw, .text raw' => decidable_of_decidable_of_iff (p := raw = raw') (by simp)
  | .comment body, .comment body' => decidable_of_decidable_of_iff (p := body = body') (by simp)
  | .element .., .text _ | .element .., .comment _ | .text _, .element .. | .text _, .comment _
  | .comment _, .element .. | .comment _, .text _ => isFalse nofun

/-- Are two lists of nodes the same? -/
def Node.decEqAll : (ms ns : List Node) → Decidable (ms = ns)
  | [], [] => isTrue rfl
  | m :: ms, n :: ns =>
    have := Node.decEq m n
    have := Node.decEqAll ms ns
    decidable_of_decidable_of_iff (p := m = n ∧ ms = ns) (by simp)
  | [], _ :: _ | _ :: _, [] => isFalse nofun

end

instance : DecidableEq Node := Node.decEq

namespace Node

/-- Is the node text made of blanks alone? -/
def isBlank : Node → Bool
  | text raw => raw.all Bytes.isBlank
  | _ => false

/-- Is the node text with something other than blanks in it? -/
def isWording : Node → Bool
  | text raw => !raw.all Bytes.isBlank
  | _ => false

/-- The nodes that are not blank. -/
def significant (nodes : List Node) : List Node := nodes.filter (!·.isBlank)

end Node

/-- The name of the root: the first element, if only comments and blanks stand before it. -/
def Document.root? : Document → Option Bytes
  | [] => none
  | .element name _ _ _ :: _ => some name
  | .comment _ :: nodes => root? nodes
  | .text raw :: nodes => if raw.all Bytes.isBlank then root? nodes else none

end LayoutMarkup

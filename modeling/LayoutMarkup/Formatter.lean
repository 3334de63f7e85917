import LayoutMarkup.Canonical.Printer
import LayoutMarkup.Markup.Document

/-!
# Formatter — formatting and classifying documents

A formatter brings documents into canonical form, and tells layouts, whose root is no element of
HTML, from everything else.
-/

namespace LayoutMarkup

/-- A formatter.  What is left at its default is filled in: the standard vocabulary, an indentation
of four spaces for an empty one, and a depth of 512 for one that is not positive. -/
structure Formatter where
  vocabulary : Vocabulary := .standard
  indent : Bytes := []
  maxDepth : Int := 0
  deriving DecidableEq, Repr

/-- What a document is. -/
inductive Verdict where
  /-- Its root is not an element of HTML. -/
  | layout
  /-- Its root is an element of HTML. -/
  | page
  /-- It has no root. -/
  | rootless
  /-- It is no document. -/
  | broken (e : ParseError)
  deriving DecidableEq, Repr

/-- A record for whoever watches the formatter at work. -/
structure Trace where
  message : Bytes
  attributes : List (Bytes × Bytes)
  deriving DecidableEq, Repr

namespace Verdict

/-- Is the document a layout? -/
def isLayout : Verdict → Bool
  | layout => true
  | _ => false

/-- What is recorded of a verdict: why a text is no document. -/
def trace : Verdict → List Trace
  | broken e => [⟨Bytes.utf8 "Not a layout document", [(Bytes.utf8 "error", e.notice.text)]⟩]
  | _ => []

end Verdict

namespace Formatter

/-- How the formatter reads documents. -/
def options (f : Formatter) : ParseOptions where
  void := f.vocabulary.void
  maxDepth := ParseOptions.depthOf f.maxDepth

/-- How the formatter prints documents. -/
def style (f : Formatter) : Canonical.Style where
  vocabulary := f.vocabulary
  indent := if f.indent.isEmpty then Bytes.utf8 "    " else f.indent

/-- The canonical form of a text, or why it is no document. -/
def format (f : Formatter) (text : Bytes) : Except ParseError Bytes :=
  (Document.parse f.options text).map (Canonical.print f.style)

/-- What a text is.  White space alone has no root. -/
def classify (f : Formatter) (text : Bytes) : Verdict :=
  if text.trimSpace.isEmpty then .rootless
  else match Document.parse f.options text with
    | .error e => .broken e
    | .ok d =>
      match d.root? with
      | none => .rootless
      | some name => if f.vocabulary.html.has name then .page else .layout

/-- Is a text a layout? -/
def isLayout (f : Formatter) (text : Bytes) : Bool := (f.classify text).isLayout

end Formatter

end LayoutMarkup

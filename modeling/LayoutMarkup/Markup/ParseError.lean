import LayoutMarkup.Markup.Excerpt
import LayoutMarkup.Markup.Fault
import LayoutMarkup.Markup.Outline

/-!
# Markup/ParseError — faults and where they occur

A `ParseError` is a fault with its place in a document: the stretch it concerns and the elements
open there. All that is shown to a reader is computed from these: the one-line `Notice`, the outline
of the open elements, and the excerpt of lines around the place.
-/

namespace LayoutMarkup

/-- What a reader is told of an error in one line. -/
structure Notice where
  /-- The elements open at the place. -/
  path : Bytes
  span : Span
  message : Bytes
  /-- The text at the place. -/
  snippet : Bytes
  deriving DecidableEq, Repr

/-- The line: path and snippet are left out when empty. -/
def Notice.text (n : Notice) : Bytes :=
  (if n.path.isEmpty then [] else n.path ++ Bytes.utf8 ": ") ++
    Bytes.decimal n.span.line ++ Bytes.utf8 ":" ++ Bytes.decimal n.span.column ++ Bytes.utf8 ": " ++
    n.message ++ (if n.snippet.isEmpty then [] else Bytes.utf8 " near " ++ n.snippet.quoted)

/-- A fault in a document. -/
structure ParseError where
  fault : Fault
  /-- Where the stretch begins that the fault concerns. -/
  offset : Nat
  /-- The length of that stretch, which may reach beyond the end of the document. -/
  length : Nat
  /-- The elements open at the fault, outermost first. -/
  chain : List StartTag
  /-- The document. -/
  source : Bytes
  deriving DecidableEq, Repr

namespace ParseError

/-- Where the fault is. -/
def span (e : ParseError) : Span := .locate e.source e.offset e.length

/-- What a reader is told in one line. -/
def notice (e : ParseError) : Notice where
  path := Outline.path e.chain
  span := e.span
  message := e.fault.message
  snippet := snippet e.source e.offset

/-- The outline of the elements open at the fault; empty if none is. -/
def context (e : ParseError) : Bytes := Outline.render e.chain

/-- The lines around the fault. -/
def excerpt? (e : ParseError) (radius : Int) : Option Excerpt :=
  Excerpt.around? e.source e.span radius

end ParseError

end LayoutMarkup

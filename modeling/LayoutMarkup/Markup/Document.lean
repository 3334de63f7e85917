import LayoutMarkup.Markup.ParseError
import LayoutMarkup.Markup.Token
import LayoutMarkup.Vocabulary

/-!
# Markup/Document — from tokens to trees

A builder takes the tokens of a document one by one.  It holds the finished nodes of the innermost
open element, the stack of open elements, and the start tag it is in.  A closing tag ends the
innermost open element; void elements that are still open inside it end with it, and with the
document.
-/

namespace LayoutMarkup

/-- How a document is read. -/
structure ParseOptions where
  /-- The elements whose closing tag may be left out. -/
  void : NameSet := Vocabulary.standard.void
  /-- How many elements may be open at once. -/
  maxDepth : Nat := 512
  deriving DecidableEq, Repr

/-- The depth for a limit; the default stands for one that is not positive. -/
def ParseOptions.depthOf (limit : Int) : Nat := if 0 < limit then limit.toNat else 512

/-- An open element. -/
structure OpenElement where
  tag : StartTag
  /-- The offset where its start tag begins. -/
  offset : Nat
  /-- The siblings before it, the nearest one first. -/
  before : List Node
  deriving Repr

/-- The nodes up to the end of an element, given those inside it; the last ones come first. -/
def OpenElement.close (e : OpenElement) (inside : List Node) : List Node :=
  .element e.tag.name e.tag.attributes inside.reverse false :: e.before

/-- A start tag that has not come to its end. -/
structure Draft where
  name : Bytes
  offset : Nat
  /-- The attributes so far, the last one first. -/
  attributes : List Attribute := []
  /-- The key whose value comes next. -/
  key : Option Bytes := none
  deriving DecidableEq, Repr

/-- A document under construction. -/
structure Builder where
  /-- The nodes of the innermost open element, or of the document, the last one first. -/
  nodes : List Node := []
  /-- The open elements, the innermost one first. -/
  stack : List OpenElement := []
  /-- The start tag being read. -/
  draft : Option Draft := none
  deriving Repr

namespace Builder

/-- Ends the elements of a stack up to the innermost one with a name.  Only void elements end this
way without a closing tag of their own; any other one stops it, and the stack from there on is
left. -/
def closeTo (void : NameSet) (name : Bytes) (nodes : List Node) :
    List OpenElement → Except (List OpenElement) (List Node × List OpenElement)
  | [] => .error []
  | e :: stack =>
    if e.tag.name = name then .ok (e.close nodes, stack)
    else if void.has e.tag.name then closeTo void name (e.close nodes) stack
    else .error (e :: stack)

/-- Ends all elements of a stack.  One that is not void stops it, and the stack from there on is
left. -/
def closeAll (void : NameSet) (nodes : List Node) :
    List OpenElement → Except (OpenElement × List OpenElement) (List Node)
  | [] => .ok nodes
  | e :: stack =>
    if void.has e.tag.name then closeAll void (e.close nodes) stack else .error (e, stack)

/-- The start tags of a stack, outermost first. -/
def chain (stack : List OpenElement) : List StartTag := (stack.map (·.tag)).reverse

/-- A fault found while a stack of elements is open. -/
def failure (src : Bytes) (stack : List OpenElement) (offset length : Nat) (f : Fault) :
    ParseError :=
  ⟨f, offset, length, chain stack, src⟩

/-- Takes a closing tag. -/
def takeCloseTag (o : ParseOptions) (src : Bytes) (b : Builder) (t : Token) :
    Except ParseError Builder :=
  match closeTo o.void t.text b.nodes b.stack with
  | .ok (nodes, stack) => .ok { nodes, stack }
  | .error stack =>
    .error (failure src stack (t.pos - 2) (t.text.length + 3)
      (.mismatchedClose t.text (stack.head?.map (·.tag.name))))

/-- Takes the end of the document. -/
def takeFinish (o : ParseOptions) (src : Bytes) (b : Builder) (t : Token) :
    Except ParseError Builder :=
  match closeAll o.void b.nodes b.stack with
  | .ok nodes => .ok { nodes }
  | .error (e, stack) =>
    .error (failure src (e :: stack) t.pos 0
      (.unclosed e.tag.name (Span.locate src e.offset 0).line))

/-- Takes the end of a start tag. -/
def takeTagEnd (o : ParseOptions) (src : Bytes) (b : Builder) (d : Draft) :
    Except ParseError Builder :=
  if b.stack.length < o.maxDepth then
    .ok { nodes := [], stack := ⟨⟨d.name, d.attributes.reverse⟩, d.offset, b.nodes⟩ :: b.stack }
  else .error (failure src b.stack d.offset (d.name.length + 1) (.tooDeep o.maxDepth))

/-- Takes a token between tags. -/
def takeInContent (o : ParseOptions) (src : Bytes) (b : Builder) (t : Token) :
    Except ParseError Builder :=
  match t.kind with
  | .text => .ok { b with nodes := .text t.text :: b.nodes }
  | .comment => .ok { b with nodes := .comment t.text :: b.nodes }
  | .tagName => .ok { b with draft := some { name := t.text, offset := t.pos - 1 } }
  | .closeTag => takeCloseTag o src b t
  | .finish => takeFinish o src b t
  | .fault f => .error (failure src b.stack t.pos 1 f)
  | .key | .value | .tagEnd | .selfClose =>
    .error (failure src b.stack t.pos t.text.length (.unexpectedToken false t.text))

/-- Takes a token inside a start tag. -/
def takeInTag (o : ParseOptions) (src : Bytes) (b : Builder) (d : Draft) (t : Token) :
    Except ParseError Builder :=
  match d.key, t.kind with
  | _, .fault f => .error (failure src b.stack t.pos 1 f)
  | some key, .value =>
    .ok { b with draft := some { d with attributes := ⟨key, t.text⟩ :: d.attributes, key := none } }
  | none, .key => .ok { b with draft := some { d with key := some t.text } }
  | none, .tagEnd => takeTagEnd o src b d
  | none, .selfClose =>
    .ok { b with nodes := .element d.name d.attributes.reverse [] true :: b.nodes, draft := none }
  | _, _ => .error (failure src b.stack t.pos t.text.length (.unexpectedToken true t.text))

/-- Takes one token. -/
def take (o : ParseOptions) (src : Bytes) (b : Builder) (t : Token) : Except ParseError Builder :=
  match b.draft with
  | none => takeInContent o src b t
  | some d => takeInTag o src b d t

end Builder

/-- The tree of a document, or the first fault in it. -/
def Document.parse (o : ParseOptions) (src : Bytes) : Except ParseError Document :=
  ((Token.scan src).foldlM (Builder.take o src) {}).map fun b => b.nodes.reverse

end LayoutMarkup

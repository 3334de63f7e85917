import LayoutMarkup.Text.Quoted

/-!
# Markup/Fault — what can be wrong with a document

A fault is the reason why a text is no document.  Faults fall into seven kinds, each with a fixed
text; the message of a fault is the text of its kind, followed by what was found where.
-/

namespace LayoutMarkup

/-- The kinds of faults. -/
inductive Fault.Kind where
  | unterminatedTag
  | unterminatedComment
  | unterminatedValue
  | mismatchedClose
  | unexpectedEnd
  | unexpectedChar
  | tooDeep
  deriving DecidableEq, Repr

/-- The fixed text of a kind. -/
def Fault.Kind.text : Fault.Kind → String
  | unterminatedTag => "unterminated tag"
  | unterminatedComment => "unterminated comment"
  | unterminatedValue => "unterminated attribute value"
  | mismatchedClose => "mismatched closing tag"
  | unexpectedEnd => "unexpected end of input"
  | unexpectedChar => "unexpected character"
  | tooDeep => "elements nested too deeply"

/-- The places in a tag where a glyph can be out of place. -/
inductive Fault.Place where
  | afterOpening
  | afterSlash
  | inTag
  | afterKey
  | beforeValue
  | afterClosing
  | inClosingTag
  deriving DecidableEq, Repr

/-- Why a text is no document. -/
inductive Fault where
  /-- The text ends inside a tag. -/
  | unterminatedTag
  /-- The text ends inside a comment. -/
  | unterminatedComment
  /-- The text ends inside an attribute value. -/
  | unterminatedValue
  /-- A glyph that cannot stand where it does. -/
  | unexpectedGlyph (place : Fault.Place) (glyph : Glyph)
  /-- A token that cannot stand where it does, inside a tag or outside of all. -/
  | unexpectedToken (insideTag : Bool) (text : Bytes)
  /-- A closing tag for another element than the innermost one that has to be closed, if any. -/
  | mismatchedClose (name : Bytes) (innermost : Option Bytes)
  /-- The text ends before the element opened on that line is closed. -/
  | unclosed (name : Bytes) (line : Int)
  /-- An element inside as many others as are allowed. -/
  | tooDeep (limit : Nat)
  deriving DecidableEq, Repr

namespace Fault

/-- The kind a fault belongs to. -/
def kind : Fault → Kind
  | unterminatedTag => .unterminatedTag
  | unterminatedComment => .unterminatedComment
  | unterminatedValue => .unterminatedValue
  | unexpectedGlyph _ _ => .unexpectedChar
  | unexpectedToken _ _ => .unexpectedChar
  | mismatchedClose _ _ => .mismatchedClose
  | unclosed _ _ => .unexpectedEnd
  | tooDeep _ => .tooDeep

/-- What is said of a glyph out of place. -/
def Place.describe (g : Glyph) : Place → Bytes
  | afterOpening => g.quoted ++ Bytes.utf8 " after '<'"
  | afterSlash => g.quoted ++ Bytes.utf8 " after '/' in tag"
  | inTag => g.quoted ++ Bytes.utf8 " in tag"
  | afterKey => Bytes.utf8 "expected '=' after attribute name, got " ++ g.quoted
  | beforeValue => Bytes.utf8 "attribute value must be double-quoted, got " ++ g.quoted
  | afterClosing => g.quoted ++ Bytes.utf8 " after '</'"
  | inClosingTag => g.quoted ++ Bytes.utf8 " in closing tag"

/-- What is said beside the fixed text of the kind. -/
def detail : Fault → Option Bytes
  | unterminatedTag | unterminatedComment | unterminatedValue | unexpectedToken _ _ => none
  | unexpectedGlyph place g => some (place.describe g)
  | mismatchedClose name (some opened) =>
    some (Bytes.utf8 "</" ++ name ++ Bytes.utf8 "> does not match <" ++ opened ++ Bytes.utf8 ">")
  | mismatchedClose name none =>
    some (Bytes.utf8 "</" ++ name ++ Bytes.utf8 "> has no open element")
  | unclosed name line =>
    some (Bytes.utf8 "<" ++ name ++ Bytes.utf8 "> at line " ++ Bytes.decimal line ++
      Bytes.utf8 " is not closed")
  | tooDeep limit => some (Bytes.utf8 "more than " ++ Bytes.decimal limit ++ Bytes.utf8 " levels")

/-- The message of a fault. -/
def message : Fault → Bytes
  | unexpectedToken insideTag text =>
    Bytes.utf8 "unexpected " ++ text.quoted ++ (if insideTag then Bytes.utf8 " in tag" else [])
  | f =>
    match f.detail with
    | none => Bytes.utf8 f.kind.text
    | some d => Bytes.utf8 f.kind.text ++ Bytes.utf8 ": " ++ d

end Fault

end LayoutMarkup

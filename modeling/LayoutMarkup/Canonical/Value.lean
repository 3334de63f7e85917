import LayoutMarkup.Expr.Call
import LayoutMarkup.Expr.Parser
import LayoutMarkup.Formula.Term
import LayoutMarkup.Markup.Node
import LayoutMarkup.Vocabulary

/-!
# Canonical/Value — attribute values in canonical form

Three kinds of values are put into canonical form: those of attributes that hold expressions, those
of attributes whose key ends in `Color`, and those in braces.  A value that cannot be read as what
it should be stays as it is, and so does one whose canonical form would mean something else.
-/

namespace LayoutMarkup

namespace Canonical

/-- What stands between the braces around a text. -/
def bracedBody? : Bytes → Option Bytes
  | [] => none
  | b :: rest =>
    if b == '\x7b'.toUInt8 && rest.getLast? == some '\x7d'.toUInt8 then some rest.dropLast else none

/-- Does an attribute hold a colour? -/
def isColour (key : Bytes) : Bool := (Bytes.utf8 "Color").isSuffixOf key

/-- The canonical form of an expression, unless it would be read as another formula. -/
def canonicalExpr? (src : Bytes) : Option Bytes :=
  match Expr.format src with
  | .error _ => none
  | .ok out => if Formula.agrees src out then some out else none

/-- The canonical form of a colour. -/
def canonicalColour? (src : Bytes) : Option Bytes := (Call.format src).toOption

/-- The canonical form of what an attribute holds. -/
def canonical? (key src : Bytes) : Option Bytes :=
  if isColour key then canonicalColour? src else canonicalExpr? src

/-- The canonical form of a value. -/
def value (v : Vocabulary) (a : Attribute) : Bytes :=
  let src := a.value.trimSpace
  match bracedBody? src with
  | some body =>
    match canonical? a.key body.trimSpace with
    | some out => Bytes.utf8 "\x7b" ++ out ++ Bytes.utf8 "\x7d"
    | none => a.value
  | none =>
    if isColour a.key || v.expression.has a.key then (canonical? a.key src).getD a.value
    else a.value

end Canonical

end LayoutMarkup

import LayoutMarkup.Text.Bytes

/-!
# Expr/Basic — expressions in attribute values

An attribute value may hold arithmetic over numbers and dotted names, or the call of a colour
function.  Numbers and names keep their spelling.
-/

namespace LayoutMarkup

/-- A binary operator. -/
inductive Operator where
  | add
  | sub
  | mul
  | div
  /-- An operator that arithmetic does not know. -/
  | other (symbol : Bytes)
  deriving DecidableEq, Repr

namespace Operator

/-- How the operator is written. -/
def symbol : Operator → Bytes
  | add => Bytes.utf8 "+"
  | sub => Bytes.utf8 "-"
  | mul => Bytes.utf8 "*"
  | div => Bytes.utf8 "/"
  | other s => s

/-- How strongly the operator binds. -/
def strength : Operator → Nat
  | mul | div => 2
  | add | sub => 1
  | other _ => 0

end Operator

/-- A function call.  Its arguments are not read any further. -/
structure Call where
  name : Bytes
  args : List Bytes
  deriving DecidableEq, Repr

/-- An expression. -/
inductive Expr where
  | number (text : Bytes)
  | name (text : Bytes)
  | neg (operand : Expr)
  | binary (op : Operator) (left right : Expr)
  | call (c : Call)
  deriving DecidableEq, Repr

namespace Expr

/-- The number of levels of an expression. -/
def height : Expr → Nat
  | number _ | name _ | call _ => 1
  | neg e => e.height + 1
  | binary _ l r => max l.height r.height + 1

/-- The operator of a binary expression. -/
def operator? : Expr → Option Operator
  | binary op _ _ => some op
  | _ => none

end Expr

end LayoutMarkup

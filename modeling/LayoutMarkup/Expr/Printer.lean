import LayoutMarkup.Expr.Basic

/-!
# Expr/Printer — the canonical form of an expression

Operators have a space on each side.  An operand that is itself binary stands in parentheses, unless
it is the left one and its operator binds just as strongly: chains stay flat, every other grouping
shows.
-/

namespace LayoutMarkup

/-- A text in parentheses. -/
def Bytes.parenthesized (s : Bytes) : Bytes := Bytes.utf8 "(" ++ s ++ Bytes.utf8 ")"

/-- The canonical form of a call. -/
def Call.print (c : Call) : Bytes :=
  c.name ++ Bytes.parenthesized ((Bytes.utf8 ", ").intercalate c.args)

namespace Expr

/-- Does the operand of a negation need parentheses? -/
def groupsUnderNeg : Expr → Bool
  | neg _ | binary _ _ _ => true
  | _ => false

/-- Does the left operand of an operator need parentheses? -/
def groupsOnLeft (op : Operator) (e : Expr) : Bool := e.operator?.any (·.strength != op.strength)

/-- Does the right operand of an operator need parentheses? -/
def groupsOnRight (e : Expr) : Bool := e.operator?.isSome

/-- The canonical form of an expression. -/
def print : Expr → Bytes
  | number text => text
  | name text => text
  | neg e => Bytes.utf8 "-" ++ if e.groupsUnderNeg then e.print.parenthesized else e.print
  | binary op l r =>
    (if l.groupsOnLeft op then l.print.parenthesized else l.print) ++
      Bytes.utf8 " " ++ op.symbol ++ Bytes.utf8 " " ++
      if r.groupsOnRight then r.print.parenthesized else r.print
  | call c => c.print

end Expr

end LayoutMarkup

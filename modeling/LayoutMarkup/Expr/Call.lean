import LayoutMarkup.Expr.Lexeme
import LayoutMarkup.Expr.Printer
import LayoutMarkup.Text.Space

/-!
# Expr/Call — reading function calls

    name ( argument , … , argument )

Arguments are separated by the commas outside of all parentheses; each is kept as it is written,
without the white space around it.
-/

namespace LayoutMarkup

namespace Call

/-- The arguments up to the end of a text: what is left of the current one, and those after it.  The
text begins at an offset, inside as many parentheses as `depth` says; behind it stands the closing
parenthesis of the call. -/
def split (pos depth : Nat) : Bytes → Except SyntaxError (Bytes × List Bytes)
  | [] => if depth = 0 then .ok ([], []) else .error ⟨pos + 1, .unbalancedOpening⟩
  | b :: s => do
    if b == ','.toUInt8 && depth == 0 then
      let (arg, args) ← split (pos + 1) depth s
      return ([], arg :: args)
    if b == ')'.toUInt8 && depth == 0 then throw ⟨pos, .unbalancedClosing⟩
    let depth :=
      if b == '('.toUInt8 then depth + 1 else if b == ')'.toUInt8 then depth - 1 else depth
    let (arg, args) ← split (pos + 1) depth s
    return (b :: arg, args)

/-- Trims arguments and refuses empty ones; the first has the given number, and faults are reported
at `pos`. -/
def trimAll (pos : Nat) : Nat → List Bytes → Except SyntaxError (List Bytes)
  | _, [] => .ok []
  | number, arg :: args => do
    if arg.trimSpace.isEmpty then throw ⟨pos, .emptyArgument number⟩
    return arg.trimSpace :: (← trimAll pos (number + 1) args)

/-- The call a text holds. -/
def parse (src : Bytes) : Except SyntaxError Call := do
  let first := (Cursor.start (src.trimEnd Scan.isGap)).skipWhile Scan.isGap
  let name := first.rest.identifier
  if name.isEmpty then throw ⟨first.pos, .noName⟩
  let opening := (first.skip name.length).skipWhile Scan.isGap
  if !opening.at? '(' then throw ⟨opening.pos, .noOpening⟩
  if opening.rest.getLast? != some ')'.toUInt8 then
    throw ⟨opening.pos + opening.rest.length, .noClosing⟩
  let body := opening.skip 1
  let (arg, args) ← split body.pos 0 body.rest.dropLast
  return ⟨name, ← trimAll body.pos 1 (arg :: args)⟩

/-- The canonical form of the call a text holds. -/
def format (src : Bytes) : Except SyntaxError Bytes := (parse src).map print

end Call

end LayoutMarkup

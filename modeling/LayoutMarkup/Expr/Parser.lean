import LayoutMarkup.Expr.Lexeme
import LayoutMarkup.Expr.Printer

/-!
# Expr/Parser — reading arithmetic

    sum     = product { ("+" | "-") product }
    product = factor { ("*" | "/") factor }
    factor  = "-" factor | number | name | "(" sum ")"

Repetitions group to the left.  Every function returns what it leaves of the lexemes together with
the fact that this is less than it was given, which ends the loops; factors inside factors are
counted, and there may be at most `maxDepth` of them.  No binary expression may be higher than that
either.
-/

namespace LayoutMarkup

namespace Expr

/-- The bound on nested factors, and on the height of binary expressions. -/
def maxDepth : Nat := 256

/-- An expression at the beginning of some lexemes, with the lexemes behind it. -/
abbrev Parsed (ts : List PlacedLexeme) : Type :=
  Except SyntaxError { r : Expr × List PlacedLexeme // r.2.length < ts.length }

/-- The error that the next lexeme, or the end of all, cannot stand where it does. -/
def unexpected (ending : Ending) : List PlacedLexeme → SyntaxError
  | [] => ending.error
  | t :: _ => ⟨t.pos, .unexpectedToken t.lexeme.text⟩

/-- The offset of the next lexeme, or of the end of all. -/
def nextPos (ending : Ending) : List PlacedLexeme → Nat
  | [] => ending.pos
  | t :: _ => t.pos

/-- The operators of sums. -/
def isAdditive : Operator → Bool
  | .add | .sub => true
  | _ => false

/-- The operators of products. -/
def isMultiplicative : Operator → Bool
  | .mul | .div => true
  | _ => false

/-- Goes on with a chain whose first part is `left`: as long as an accepted operator comes next,
what has been read is its left operand. -/
def chain (accepts : Operator → Bool) (operand : (ts : List PlacedLexeme) → Parsed ts)
    (left : Expr) : (ts : List PlacedLexeme) →
      Except SyntaxError { r : Expr × List PlacedLexeme // r.2.length ≤ ts.length }
  | ⟨.operator op, pos⟩ :: ts =>
    if accepts op then do
      let ⟨(right, rest), h⟩ ← operand ts
      if (binary op left right).height > maxDepth then throw ⟨pos, .tooDeep⟩
      let ⟨r, h'⟩ ← chain accepts operand (binary op left right) rest
      return ⟨r, Nat.le_trans h' (Nat.le_trans (Nat.le_of_lt h) (Nat.le_succ _))⟩
    else return ⟨(left, ⟨.operator op, pos⟩ :: ts), Nat.le_refl _⟩
  | ts => return ⟨(left, ts), Nat.le_refl _⟩
termination_by ts => ts.length
decreasing_by exact Nat.lt_succ_of_lt h

/-- A chain of operands with accepted operators between them. -/
def level (accepts : Operator → Bool) (operand : (ts : List PlacedLexeme) → Parsed ts)
    (ts : List PlacedLexeme) : Parsed ts := do
  let ⟨(left, rest), h⟩ ← operand ts
  let ⟨r, h'⟩ ← chain accepts operand left rest
  return ⟨r, Nat.lt_of_le_of_lt h' h⟩

/-- A sum of products of factors. -/
def sum (factor : (ts : List PlacedLexeme) → Parsed ts) : (ts : List PlacedLexeme) → Parsed ts :=
  level isAdditive (level isMultiplicative factor)

/-- A factor, with `depth` factors inside each other allowed. -/
def factor (ending : Ending) : Nat → (ts : List PlacedLexeme) → Parsed ts
  | 0, ts => throw ⟨nextPos ending ts, .tooDeep⟩
  | depth + 1, ts =>
    match ts with
    | ⟨.operator .sub, _⟩ :: ts => do
      let ⟨(e, rest), h⟩ ← factor ending depth ts
      return ⟨(neg e, rest), Nat.lt_succ_of_lt h⟩
    | ⟨.number text, _⟩ :: ts => return ⟨(number text, ts), Nat.lt_succ_self _⟩
    | ⟨.name text, _⟩ :: ts => return ⟨(name text, ts), Nat.lt_succ_self _⟩
    | ⟨.leftParen, _⟩ :: ts => do
      let ⟨(e, rest), h⟩ ← sum (factor ending depth) ts
      match rest, h with
      | ⟨.rightParen, _⟩ :: rest, h =>
        return ⟨(e, rest), Nat.lt_trans (Nat.lt_succ_self _) (Nat.lt_succ_of_lt h)⟩
      | rest, _ => throw (unexpected ending rest)
    | ts => throw (unexpected ending ts)

/-- The expression a text holds. -/
def parse (src : Bytes) : Except SyntaxError Expr := do
  let scan := Scan.ofText src
  let ⟨(e, rest), _⟩ ← sum (factor scan.ending maxDepth) scan.lexemes
  match rest, scan.ending with
  | [], .complete _ => return e
  | rest, ending => throw (unexpected ending rest)

/-- The canonical form of the expression a text holds. -/
def format (src : Bytes) : Except SyntaxError Bytes := (parse src).map print

end Expr

end LayoutMarkup

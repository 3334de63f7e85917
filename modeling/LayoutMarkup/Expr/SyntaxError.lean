import LayoutMarkup.Text.Quoted

/-!
# Expr/SyntaxError — what can be wrong with an expression

A syntax error is a fault with the offset where it is found.
-/

namespace LayoutMarkup

/-- Why a text is no expression, or no call. -/
inductive SyntaxFault where
  /-- A glyph that begins no token. -/
  | unexpectedGlyph (glyph : Glyph)
  /-- Digits and a point without digits behind it. -/
  | malformedNumber (text : Bytes)
  /-- A token that cannot stand where it does. -/
  | unexpectedToken (text : Bytes)
  /-- The expression ends too early. -/
  | unexpectedEnd
  /-- The expression has too many levels. -/
  | tooDeep
  /-- A call without a name. -/
  | noName
  /-- A call without an opening parenthesis behind its name. -/
  | noOpening
  /-- A call without a closing parenthesis at its end. -/
  | noClosing
  /-- A closing parenthesis among the arguments that closes nothing. -/
  | unbalancedClosing
  /-- An opening parenthesis among the arguments that is never closed. -/
  | unbalancedOpening
  /-- An argument made of white space alone; they are numbered from 1. -/
  | emptyArgument (number : Nat)
  deriving DecidableEq, Repr

/-- The message of a fault. -/
def SyntaxFault.message : SyntaxFault → Bytes
  | unexpectedGlyph g => Bytes.utf8 "unexpected character " ++ g.quoted
  | malformedNumber text => Bytes.utf8 "malformed number " ++ text.quoted
  | unexpectedToken text => Bytes.utf8 "unexpected " ++ text.quoted
  | unexpectedEnd => Bytes.utf8 "unexpected end of expression"
  | tooDeep => Bytes.utf8 "expression nested too deeply"
  | noName => Bytes.utf8 "expected function name"
  | noOpening => Bytes.utf8 "expected '('"
  | noClosing => Bytes.utf8 "expected ')'"
  | unbalancedClosing => Bytes.utf8 "unbalanced ')'"
  | unbalancedOpening => Bytes.utf8 "unbalanced '('"
  | emptyArgument n => Bytes.utf8 "empty argument " ++ Bytes.decimal n

/-- A fault at an offset. -/
structure SyntaxError where
  pos : Nat
  fault : SyntaxFault
  deriving DecidableEq, Repr

/-- What a reader is told in one line. -/
def SyntaxError.text (e : SyntaxError) : Bytes :=
  e.fault.message ++ Bytes.utf8 " at offset " ++ Bytes.decimal e.pos

end LayoutMarkup

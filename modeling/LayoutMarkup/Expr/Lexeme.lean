import LayoutMarkup.Expr.Basic
import LayoutMarkup.Expr.SyntaxError
import LayoutMarkup.Text.Cursor
import LayoutMarkup.Text.Digit
import LayoutMarkup.Text.Letter

/-!
# Expr/Lexeme — an expression as a sequence of lexemes

Numbers are `12`, `1.5` or `.5`; names are letters, digits, underscores and points behind a letter
or an underscore.  Scanning ends at the end of the text or at the first thing that is no lexeme.
-/

namespace LayoutMarkup

/-! ## Identifiers -/

/-- Can an identifier begin with the character? -/
def isIdentifierStart (c : Char) : Bool := c == '_' || isLetter c

/-- Can the character stand in an identifier? -/
def isIdentifierPart (c : Char) : Bool := c == '_' || c == '.' || isLetter c || isDecimalDigit c

/-- The identifier a text begins with, empty if it begins with none. -/
def Bytes.identifier (s : Bytes) : Bytes := s.word isIdentifierStart isIdentifierPart

/-! ## Lexemes -/

/-- A unit of an expression. -/
inductive Lexeme where
  | number (text : Bytes)
  | name (text : Bytes)
  | operator (op : Operator)
  | leftParen
  | rightParen
  deriving DecidableEq, Repr

namespace Lexeme

/-- How the lexeme is written. -/
def text : Lexeme → Bytes
  | number s => s
  | name s => s
  | operator op => op.symbol
  | leftParen => Bytes.utf8 "("
  | rightParen => Bytes.utf8 ")"

/-- The number that begins with a digit `d`, followed by `s`. -/
def readNumber (d : UInt8) (s : Bytes) : Except SyntaxFault Lexeme :=
  let whole := d :: s.takeWhile Bytes.isDigit
  match s.dropWhile Bytes.isDigit with
  | [] => .ok (.number whole)
  | b :: behind =>
    if b == '.'.toUInt8 then
      let fraction := behind.takeWhile Bytes.isDigit
      if fraction.isEmpty then .error (.malformedNumber (whole ++ [b]))
      else .ok (.number (whole ++ b :: fraction))
    else .ok (.number whole)

/-- The lexeme that stands for a single character. -/
def ofChar? : Char → Option Lexeme
  | '+' => some (operator .add)
  | '-' => some (operator .sub)
  | '*' => some (operator .mul)
  | '/' => some (operator .div)
  | '(' => some leftParen
  | ')' => some rightParen
  | _ => none

/-- The lexeme a text begins with; the text is a first byte `b` and what follows. -/
def read (b : UInt8) (s : Bytes) : Except SyntaxFault Lexeme :=
  let fraction := s.takeWhile Bytes.isDigit
  let name := Bytes.identifier (b :: s)
  if Bytes.isDigit b then readNumber b s
  else if b == '.'.toUInt8 && !fraction.isEmpty then .ok (.number (b :: fraction))
  else if !name.isEmpty then .ok (.name name)
  else match Bytes.glyph? (b :: s) with
    | some (.char c, _) =>
      match ofChar? c with
      | some l => .ok l
      | none => .error (.unexpectedGlyph (.char c))
    | _ => .error (.unexpectedGlyph (.stray b))

theorem text_ne_nil_of_readNumber {d : UInt8} {s : Bytes} {l : Lexeme}
    (h : readNumber d s = .ok l) : l.text ≠ [] := by
  unfold readNumber at h
  simp only at h
  split at h
  · obtain rfl := by simpa using h
    simp [text]
  · split at h
    · split at h
      · simp at h
      · obtain rfl := by simpa using h
        simp [text]
    · obtain rfl := by simpa using h
      simp [text]

theorem text_ne_nil_of_ofChar? {c : Char} {l : Lexeme} (h : ofChar? c = some l) : l.text ≠ [] := by
  unfold ofChar? at h
  split at h <;> cases h <;> decide

/-- **No lexeme is empty.** -/
theorem text_ne_nil_of_read {b : UInt8} {s : Bytes} {l : Lexeme} (h : read b s = .ok l) :
    l.text ≠ [] := by
  unfold read at h
  simp only at h
  split at h
  · exact text_ne_nil_of_readNumber h
  · split at h
    · obtain rfl := by simpa using h
      simp [text]
    · split at h
      · next hn =>
        obtain rfl := by simpa using h
        simpa [text] using hn
      · split at h
        · split at h
          · next hc =>
            obtain rfl := by simpa using h
            exact text_ne_nil_of_ofChar? hc
          · simp at h
        · simp at h

end Lexeme

/-! ## Scanning -/

/-- A lexeme with its offset. -/
structure PlacedLexeme where
  lexeme : Lexeme
  pos : Nat
  deriving DecidableEq, Repr

/-- How scanning ended. -/
inductive Ending where
  /-- At the end of the text. -/
  | complete (pos : Nat)
  /-- At something that is no lexeme. -/
  | broken (e : SyntaxError)
  deriving DecidableEq, Repr

namespace Ending

/-- Where scanning ended. -/
def pos : Ending → Nat
  | complete pos => pos
  | broken e => e.pos

/-- What is wrong if a lexeme is wanted there. -/
def error : Ending → SyntaxError
  | complete pos => ⟨pos, .unexpectedEnd⟩
  | broken e => e

end Ending

/-- The lexemes of a text, and how scanning it ended. -/
structure Scan where
  lexemes : List PlacedLexeme
  ending : Ending
  deriving DecidableEq, Repr

namespace Scan

/-- Blanks of expressions: space, tab, carriage return and line feed. -/
def isGap (b : UInt8) : Bool :=
  b == ' '.toUInt8 || b == '\t'.toUInt8 || b == '\r'.toUInt8 || b == '\n'.toUInt8

/-- The lexemes from a cursor on. -/
def scanFrom (before : Cursor) : Scan :=
  let c := before.skipWhile isGap
  match _hc : c.rest with
  | [] => ⟨[], .complete c.pos⟩
  | b :: s =>
    match _hl : Lexeme.read b s with
    | .error f => ⟨[], .broken ⟨c.pos, f⟩⟩
    | .ok l =>
      let after := scanFrom (c.skip l.text.length)
      ⟨⟨l, c.pos⟩ :: after.lexemes, after.ending⟩
termination_by before.rest.length
decreasing_by
  have hle := Cursor.length_skipWhile_le before isGap
  have hpos := List.length_pos_iff.mpr (Lexeme.text_ne_nil_of_read _hl)
  have hlen : (before.skipWhile isGap).rest.length = s.length + 1 := congrArg List.length _hc
  simp only [Cursor.length_skip]
  omega

/-- The lexemes of a text. -/
def ofText (src : Bytes) : Scan := scanFrom (.start src)

end Scan

end LayoutMarkup

import LayoutMarkup.Formula.Token
import LayoutMarkup.Text.Glyph

/-!
# Formula/Term — what a formula means

    sum     = product { ("+" | "-") product }
    product = factor { ("*" | "/") factor }
    factor  = "-" factor { access } | number | ( word | text | "(" sum ")" ) { access }
    access  = "." word | "[" sum "]"

The terms of a formula keep the values of numbers and strings, not their spelling, and leave out all
that only groups or separates.  Two texts mean the same if they have the same term.
-/

namespace LayoutMarkup

namespace Formula

/-- The operators of a formula. -/
inductive Operation where
  | plus
  | minus
  | times
  | over
  deriving DecidableEq, Repr

/-- A formula. -/
inductive Term where
  | number (n : Number)
  | name (text : Bytes)
  | text (value : Bytes)
  | neg (operand : Term)
  | binary (op : Operation) (left right : Term)
  /-- A member of an object, by its name or place. -/
  | member (object property : Term)
  deriving DecidableEq, Repr

/-- Words that are no names of their own; they can still be names of members. -/
def reserved : List String :=
  ["not", "in", "or", "and", "matches", "contains", "startsWith", "endsWith", "let",
   "true", "false", "nil"]

/-- A term at the beginning of some tokens, with the tokens behind it. -/
abbrev Read (ts : List Token) : Type := Option { r : Term × List Token // r.2.length < ts.length }

/-- A term that may go on into some tokens, with the tokens behind it. -/
abbrev Extended (ts : List Token) : Type :=
  Option { r : Term × List Token // r.2.length ≤ ts.length }

/-- The word that a token is, if it is one. -/
def Token.word? : Token → Option Bytes
  | .word w => some (w.flatMap String.utf8EncodeChar)
  | _ => none

/-- The operators of sums. -/
def Token.additive? : Token → Option Operation
  | .plus => some .plus
  | .minus => some .minus
  | _ => none

/-- The operators of products. -/
def Token.multiplicative? : Token → Option Operation
  | .times => some .times
  | .over => some .over
  | _ => none

mutual

/-- A sum of products. -/
def sum (ts : List Token) : Read ts :=
  match product ts with
  | none => none
  | some ⟨(left, rest), h⟩ =>
    match sumRest left rest with
    | none => none
    | some ⟨r, h'⟩ => some ⟨r, Nat.lt_of_le_of_lt h' h⟩
termination_by 3 * ts.length + 2
decreasing_by
  · omega
  · simp only at h; omega

/-- Goes on with a sum whose first part is `left`. -/
def sumRest (left : Term) : (ts : List Token) → Extended ts
  | [] => some ⟨(left, []), Nat.le_refl _⟩
  | t :: ts =>
    match t.additive? with
    | none => some ⟨(left, t :: ts), Nat.le_refl _⟩
    | some op =>
      match product ts with
      | none => none
      | some ⟨(right, rest), h⟩ =>
        match sumRest (.binary op left right) rest with
        | none => none
        | some ⟨r, h'⟩ => some ⟨r, Nat.le_trans h' (Nat.le_succ_of_le (Nat.le_of_lt h))⟩
termination_by ts => 3 * ts.length
decreasing_by
  · simp only [List.length_cons]; omega
  · simp only at h; simp only [List.length_cons]; omega

/-- A product of factors. -/
def product (ts : List Token) : Read ts :=
  match factor ts with
  | none => none
  | some ⟨(left, rest), h⟩ =>
    match productRest left rest with
    | none => none
    | some ⟨r, h'⟩ => some ⟨r, Nat.lt_of_le_of_lt h' h⟩
termination_by 3 * ts.length + 1
decreasing_by
  · omega
  · simp only at h; omega

/-- Goes on with a product whose first part is `left`. -/
def productRest (left : Term) : (ts : List Token) → Extended ts
  | [] => some ⟨(left, []), Nat.le_refl _⟩
  | t :: ts =>
    match t.multiplicative? with
    | none => some ⟨(left, t :: ts), Nat.le_refl _⟩
    | some op =>
      match factor ts with
      | none => none
      | some ⟨(right, rest), h⟩ =>
        match productRest (.binary op left right) rest with
        | none => none
        | some ⟨r, h'⟩ => some ⟨r, Nat.le_trans h' (Nat.le_succ_of_le (Nat.le_of_lt h))⟩
termination_by ts => 3 * ts.length
decreasing_by
  · simp only [List.length_cons]; omega
  · simp only at h; simp only [List.length_cons]; omega

/-- A factor.  Members can be taken of all but numbers. -/
def factor : (ts : List Token) → Read ts
  | .minus :: ts =>
    match factor ts with
    | none => none
    | some ⟨(e, rest), h⟩ =>
      match access (.neg e) rest with
      | none => none
      | some ⟨r, h'⟩ => some ⟨r, Nat.lt_succ_of_lt (Nat.lt_of_le_of_lt h' h)⟩
  | .number n :: ts => some ⟨(.number n, ts), Nat.lt_succ_self _⟩
  | .word w :: ts =>
    if w ∈ reserved.map String.toList then none
    else match access (.name (w.flatMap String.utf8EncodeChar)) ts with
      | none => none
      | some ⟨r, h⟩ => some ⟨r, Nat.lt_succ_of_le h⟩
  | .text value :: ts =>
    match access (.text value) ts with
    | none => none
    | some ⟨r, h⟩ => some ⟨r, Nat.lt_succ_of_le h⟩
  | .leftParen :: ts =>
    match sum ts with
    | some ⟨(e, .rightParen :: rest), h⟩ =>
      match access e rest with
      | none => none
      | some ⟨r, h'⟩ =>
        some ⟨r, Nat.lt_succ_of_lt (Nat.lt_of_le_of_lt h' (Nat.lt_trans (Nat.lt_succ_self _) h))⟩
    | _ => none
  | _ => none
termination_by ts => 3 * ts.length
decreasing_by
  · simp only [List.length_cons]; omega
  · simp only at h; simp only [List.length_cons]; omega
  · simp only [List.length_cons]; omega
  · simp only [List.length_cons]; omega
  · simp only [List.length_cons]; omega
  · simp only [List.length_cons] at h; simp only [List.length_cons]; omega

/-- Takes members of an object as long as the tokens ask for them. -/
def access (object : Term) : (ts : List Token) → Extended ts
  | .dot :: t :: ts =>
    match t.word? with
    | none => none
    | some w =>
      match access (.member object (.text w)) ts with
      | none => none
      | some ⟨r, h⟩ => some ⟨r, Nat.le_succ_of_le (Nat.le_succ_of_le h)⟩
  | .dot :: [] => none
  | .leftBracket :: ts =>
    match sum ts with
    | some ⟨(property, .rightBracket :: rest), h⟩ =>
      match access (.member object property) rest with
      | none => none
      | some ⟨r, h'⟩ =>
        some ⟨r, Nat.le_succ_of_le
          (Nat.le_trans h' (Nat.le_of_lt (Nat.lt_trans (Nat.lt_succ_self _) h)))⟩
    | _ => none
  | ts => some ⟨(object, ts), Nat.le_refl _⟩
termination_by ts => 3 * ts.length
decreasing_by
  · simp only [List.length_cons]; omega
  · simp only [List.length_cons]; omega
  · simp only [List.length_cons] at h; simp only [List.length_cons]; omega

end

/-- The term of a text, none if it is no formula or not just arithmetic.  Stray bytes count as
U+FFFD. -/
def read? (src : Bytes) : Option Term :=
  match tokens? (src.glyphs.map Glyph.shown) with
  | none => none
  | some ts =>
    match sum ts with
    | some ⟨(e, []), _⟩ => some e
    | _ => none

/-- Does a text mean the same as another?  There is nothing to compare with if the other one is not
arithmetic. -/
def agrees (src formatted : Bytes) : Bool :=
  match read? src with
  | none => true
  | some e => read? formatted == some e

end Formula

end LayoutMarkup

import LayoutMarkup.Formula.Literal
import LayoutMarkup.Text.Space

/-!
# Formula/Token — a formula as a sequence of tokens

Only the tokens of arithmetic are listed: a text with any other token is not read at all.  White
space and comments (`// …` to the end of the line, `/* … */`) separate tokens.
-/

namespace LayoutMarkup

namespace Formula

/-- A token of a formula. -/
inductive Token where
  | number (n : Number)
  | word (text : List Char)
  | text (value : Bytes)
  | plus
  | minus
  | times
  | over
  | dot
  | leftParen
  | rightParen
  | leftBracket
  | rightBracket
  deriving DecidableEq, Repr

/-- A piece of a formula. -/
inductive Piece where
  | gap
  | token (t : Token)
  deriving DecidableEq, Repr

/-- The text behind the end of a comment. -/
def behindComment? : List Char → Option (List Char)
  | '*' :: '/' :: s => some s
  | _ :: s => behindComment? s
  | [] => none

/-- The piece of a text that begins with a slash; the text behind the slash is given. -/
def slash? : List Char → Option (Piece × List Char)
  | '/' :: s => some (.gap, s.dropWhile (· != '\n'))
  | '*' :: s => (behindComment? s).map (.gap, ·)
  | s => some (.token .over, s)

/-- The piece of a text that begins with a point; the text behind the point is given. -/
def point? (s : List Char) : Option (Piece × List Char) :=
  match s.head? with
  | some '.' => none
  | some c =>
    if c.isDigit then (number? ('.' :: s)).map fun (n, rest) => (.token (.number n), rest)
    else some (.token .dot, s)
  | none => some (.token .dot, s)

/-- The piece that begins with a character, and the text behind it. -/
def piece? (c : Char) (s : List Char) : Option (Piece × List Char) :=
  if isSpace c then some (.gap, s)
  else if c.isDigit then (number? (c :: s)).map fun (n, rest) => (.token (.number n), rest)
  else if isWordPart c then
    some (.token (.word (c :: s.takeWhile isWordPart)), s.dropWhile isWordPart)
  else match c with
    | '/' => slash? s
    | '.' => point? s
    | '\'' | '"' => (quoted? c s).map fun (value, rest) => (.token (.text value), rest)
    | '\x60' => (raw? s).map fun (value, rest) => (.token (.text value), rest)
    | '+' => some (.token .plus, s)
    | '-' => some (.token .minus, s)
    | '*' =>
      if s.head?.any fun d => d == '*' || d == '=' || d == '&' then none
      else some (.token .times, s)
    | '(' => some (.token .leftParen, s)
    | ')' => some (.token .rightParen, s)
    | '[' => some (.token .leftBracket, s)
    | ']' => some (.token .rightBracket, s)
    | _ => none

/-! ## Every piece moves on -/

theorem length_le_of_behindComment? {s rest : List Char} (h : behindComment? s = some rest) :
    rest.length ≤ s.length := by
  induction s using behindComment?.induct with
  | case1 s =>
    cases h
    simp only [List.length_cons]
    omega
  | case2 c s hne ih =>
    rw [behindComment?] at h
    · exact Nat.le_succ_of_le (ih h)
    · exact hne
  | case3 => cases h

theorem length_le_of_slash? {s rest : List Char} {p : Piece} (h : slash? s = some (p, rest)) :
    rest.length ≤ s.length := by
  unfold slash? at h
  split at h
  · cases h
    exact Nat.le_succ_of_le (List.dropWhile_suffix _).length_le
  · obtain ⟨_, hr, hm⟩ := Option.map_eq_some_iff.mp h
    cases hm
    exact Nat.le_succ_of_le (length_le_of_behindComment? hr)
  · cases h
    exact Nat.le_refl _

theorem length_le_of_point? {s rest : List Char} {p : Piece} (h : point? s = some (p, rest)) :
    rest.length ≤ s.length := by
  unfold point? at h
  split at h
  · cases h
  · split at h
    · obtain ⟨_, hn, hm⟩ := Option.map_eq_some_iff.mp h
      cases hm
      exact Nat.le_of_lt_succ (length_lt_of_number? hn)
    · cases h
      exact Nat.le_refl _
  · cases h
    exact Nat.le_refl _

/-- **Every piece moves on.** -/
theorem length_le_of_piece? {c : Char} {s rest : List Char} {p : Piece}
    (h : piece? c s = some (p, rest)) : rest.length ≤ s.length := by
  unfold piece? at h
  split at h
  · cases h
    exact Nat.le_refl _
  · split at h
    · obtain ⟨_, hn, hm⟩ := Option.map_eq_some_iff.mp h
      cases hm
      exact Nat.le_of_lt_succ (length_lt_of_number? hn)
    · split at h
      · cases h
        exact (List.dropWhile_suffix _).length_le
      · split at h
        · exact length_le_of_slash? h
        · exact length_le_of_point? h
        · obtain ⟨_, hv, hm⟩ := Option.map_eq_some_iff.mp h
          cases hm
          exact length_le_of_quoted? hv
        · obtain ⟨_, hv, hm⟩ := Option.map_eq_some_iff.mp h
          cases hm
          exact length_le_of_quoted? hv
        · obtain ⟨_, hv, hm⟩ := Option.map_eq_some_iff.mp h
          cases hm
          exact length_le_of_raw? hv
        · cases h
          exact Nat.le_refl _
        · cases h
          exact Nat.le_refl _
        · split at h <;> cases h
          exact Nat.le_refl _
        all_goals cases h
        all_goals exact Nat.le_refl _

/-! ## The tokens of a text -/

/-- The tokens of a text, none if it holds anything else. -/
def tokens? : List Char → Option (List Token)
  | [] => some []
  | c :: s =>
    match _h : piece? c s with
    | none => none
    | some (.gap, rest) => tokens? rest
    | some (.token t, rest) => (tokens? rest).map (t :: ·)
termination_by s => s.length
decreasing_by
  all_goals exact Nat.lt_succ_of_le (length_le_of_piece? _h)

end Formula

end LayoutMarkup

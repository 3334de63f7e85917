import LayoutMarkup.Formula.Decimal
import LayoutMarkup.Text.Digit
import LayoutMarkup.Text.Letter

/-!
# Formula/Numeral — numbers in formulas

A number is an integer (decimal, or behind `0x`, `0o`, `0b`) or, with a point or an exponent, a
binary fraction. Underscores between its digits say nothing.  What follows a number may not be part
of a word.
-/

namespace LayoutMarkup

namespace Formula

/-- The value of a number. -/
inductive Number where
  | integer (n : Nat)
  | fraction (x : Binary64)
  deriving DecidableEq, Repr

/-- Can the character stand in a word of a formula? -/
def isWordPart (c : Char) : Bool := c == '_' || c == '$' || isLetter c || isDecimalDigit c

/-- The value of a digit, up to base 16. -/
def digitValue (c : Char) : Nat :=
  if c.isDigit then c.toNat - '0'.toNat
  else if 'a' ≤ c ∧ c ≤ 'f' then c.toNat - 'a'.toNat + 10
  else if 'A' ≤ c ∧ c ≤ 'F' then c.toNat - 'A'.toNat + 10
  else 16

/-- The value of a sequence of digits. -/
def valueOf (base : Nat) (digits : List Char) : Nat :=
  digits.foldl (fun n c => n * base + digitValue c) 0

/-- The digits in a base, and underscores, that a text begins with, and the text behind them. -/
def digitRun (base : Nat) (s : List Char) : List Char × List Char :=
  let isPart := fun c => c == '_' || digitValue c < base
  ((s.takeWhile isPart).filter (· != '_'), s.dropWhile isPart)

/-- An integer has 63 bits. -/
def integer? (base : Nat) (digits : List Char) : Option Number :=
  let n := valueOf base digits
  if digits.isEmpty ∨ Nat.pow 2 63 ≤ n then none else some (.integer n)

/-- An integer whose base has been announced. -/
def based? (base : Nat) (s : List Char) : Option (Number × List Char) :=
  let (digits, rest) := digitRun base s
  if rest.head?.any fun c => isWordPart c || c == '.' then none
  else (integer? base digits).map (·, rest)

/-- The value of the digits of an exponent.  Those behind a value of 10000 are passed over. -/
def exponentValue (digits : List Char) : Nat :=
  digits.foldl (fun n c => if n < 10000 then n * 10 + digitValue c else n) 0

/-- A sign at the beginning of a text, whether it is a minus, and the text behind it. -/
def sign : List Char → Bool × List Char
  | '+' :: s => (false, s)
  | '-' :: s => (true, s)
  | s => (false, s)

/-- The exponent a text begins with, if it begins with one, and the text behind it. -/
def exponent? : List Char → Option (Option Int × List Char)
  | [] => some (none, [])
  | c :: s =>
    if c == 'e' || c == 'E' then
      let (negative, s) := sign s
      let (digits, rest) := digitRun 10 s
      let n : Int := exponentValue digits
      if digits.isEmpty then none else some (some (if negative then -n else n), rest)
    else some (none, c :: s)

/-- The value of a number with the given digits before and, if there is a point, behind it. -/
def decimalValue? (whole : List Char) (fraction : Option (List Char)) (exponent : Option Int) :
    Option Number :=
  if fraction.isNone && exponent.isNone then integer? 10 whole
  else
    let behind := fraction.getD []
    let written := Decimal.ofParts (whole.map digitValue) (behind.map digitValue) (exponent.getD 0)
    written.value?.map .fraction

/-- The number with the given digits before and, if there is a point, behind it; an exponent may
follow. -/
def decimal? (whole : List Char) (fraction : Option (List Char)) (s : List Char) :
    Option (Number × List Char) :=
  match exponent? s with
  | none => none
  | some (exponent, rest) =>
    if rest.head?.any isWordPart then none
    else (decimalValue? whole fraction exponent).map (·, rest)

/-- The number a text begins with, and the text behind it.  The text begins with a digit, or with a
point and a digit.  Two points in a row, and a second point behind a first one at the beginning, are
refused. -/
def number? : List Char → Option (Number × List Char)
  | '0' :: 'x' :: s | '0' :: 'X' :: s => based? 16 s
  | '0' :: 'o' :: s | '0' :: 'O' :: s => based? 8 s
  | '0' :: 'b' :: s | '0' :: 'B' :: s => based? 2 s
  | '.' :: s =>
    let (digits, rest) := digitRun 10 s
    if rest.head? == some '.' then none else decimal? [] (some digits) rest
  | s =>
    let (whole, rest) := digitRun 10 s
    if whole.isEmpty then none
    else match rest with
      | '.' :: rest =>
        if rest.head? == some '.' then none
        else
          let (digits, rest) := digitRun 10 rest
          decimal? whole (some digits) rest
      | rest => decimal? whole none rest

/-! ## Reading a number moves on -/

theorem length_digitRun_le (base : Nat) (s : List Char) : (digitRun base s).2.length ≤ s.length :=
  (List.dropWhile_suffix _).length_le

theorem length_digitRun_lt {base : Nat} {s : List Char} (h : (digitRun base s).1 ≠ []) :
    (digitRun base s).2.length < s.length := by
  have hne : s.takeWhile (fun c => c == '_' || digitValue c < base) ≠ [] := by
    intro he
    simp [digitRun, he] at h
  have hlen := congrArg List.length
    (List.takeWhile_append_dropWhile (p := fun c => c == '_' || digitValue c < base) (l := s))
  have := List.length_pos_iff.mpr hne
  simp only [List.length_append] at hlen
  simp only [digitRun]
  omega

theorem length_le_of_based? {base : Nat} {s rest : List Char} {n : Number}
    (h : based? base s = some (n, rest)) : rest.length ≤ s.length := by
  unfold based? at h
  simp only at h
  split at h
  · simp at h
  · obtain ⟨_, _, hm⟩ := Option.map_eq_some_iff.mp h
    cases hm
    exact length_digitRun_le base s

theorem length_sign_le (s : List Char) : (sign s).2.length ≤ s.length := by
  unfold sign
  split <;> simp

theorem length_le_of_exponent? {s rest : List Char} {e : Option Int}
    (h : exponent? s = some (e, rest)) : rest.length ≤ s.length := by
  unfold exponent? at h
  split at h
  · cases h
    exact Nat.le_refl _
  · next c s =>
    split at h
    · simp only at h
      split at h
      · cases h
      · cases h
        exact Nat.le_trans (length_digitRun_le 10 _)
          (Nat.le_trans (length_sign_le s) (Nat.le_succ _))
    · cases h
      exact Nat.le_refl _

theorem length_le_of_decimal? {whole : List Char} {fraction : Option (List Char)}
    {s rest : List Char} {n : Number} (h : decimal? whole fraction s = some (n, rest)) :
    rest.length ≤ s.length := by
  unfold decimal? at h
  split at h
  · cases h
  · next he =>
    split at h
    · cases h
    · obtain ⟨_, _, hm⟩ := Option.map_eq_some_iff.mp h
      cases hm
      exact length_le_of_exponent? he

/-- **Reading a number moves on.** -/
theorem length_lt_of_number? {s rest : List Char} {n : Number} (h : number? s = some (n, rest)) :
    rest.length < s.length := by
  unfold number? at h
  split at h
  iterate 6
    · have := length_le_of_based? h
      simp only [List.length_cons]
      omega
  · next s =>
    simp only at h
    split at h
    · cases h
    · have := length_le_of_decimal? h
      have := length_digitRun_le 10 s
      simp only [List.length_cons]
      omega
  · simp only at h
    split at h
    · cases h
    · next hw =>
      have hlt := length_digitRun_lt (fun he => hw (List.isEmpty_iff.mpr he))
      split at h
      · next r hr =>
        rw [hr, List.length_cons] at hlt
        split at h
        · cases h
        · have := length_le_of_decimal? h
          have := length_digitRun_le 10 r
          omega
      · exact Nat.lt_of_le_of_lt (length_le_of_decimal? h) hlt

end Formula

end LayoutMarkup

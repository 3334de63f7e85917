import LayoutMarkup.Formula.Numeral
import LayoutMarkup.Text.Bytes

/-!
# Formula/Literal — strings in formulas

A string stands between quotes of one kind on one line, with escapes behind backslashes, or between
backticks as it is.  Its value is a byte string.
-/

namespace LayoutMarkup

namespace Formula

/-- The bytes that a code point stands for.  Surrogates stand for U+FFFD, and there is nothing above
U+10FFFF; a code of 32 bits stands for its last byte. -/
def encode? (code : Nat) : Option Bytes :=
  if Nat.pow 2 31 ≤ code then some [code.toUInt8]
  else if 0x10FFFF < code then none
  else some (String.utf8EncodeChar (if code.isValidChar then Char.ofNat code else '�'))

/-- The bytes for a code of `width` digits at the beginning of a text. -/
def coded? (base width : Nat) (s : List Char) : Option Bytes :=
  let digits := s.take width
  if digits.length = width ∧ digits.all (digitValue · < base) then encode? (valueOf base digits)
  else none

/-- What an escape stands for, and how many characters it takes, in a string with a kind of quotes.
The text begins behind the backslash. -/
def escape? (quote : Char) : List Char → Option (Bytes × Nat)
  | [] => none
  | c :: s =>
    if c == quote then some (String.utf8EncodeChar c, 1)
    else match c with
      | '\\' => some (Bytes.utf8 "\\", 1)
      | 'a' => some ([0x07], 1)
      | 'b' => some ([0x08], 1)
      | 'f' => some ([0x0C], 1)
      | 'n' => some ([0x0A], 1)
      | 'r' => some ([0x0D], 1)
      | 't' => some ([0x09], 1)
      | 'v' => some ([0x0B], 1)
      | 'x' => (coded? 16 2 s).map (·, 3)
      | 'u' => (coded? 16 4 s).map (·, 5)
      | 'U' => (coded? 16 8 s).map (·, 9)
      | c => if digitValue c < 4 then (coded? 8 3 (c :: s)).map (·, 3) else none

/-- The rest of a string up to its closing quote, and the text behind that.  A carriage return
counts as a line feed. -/
def quoted? (quote : Char) : List Char → Option (Bytes × List Char)
  | [] => none
  | c :: s =>
    if c == quote then some ([], s)
    else if c == '\n' then none
    else if c == '\\' then
      match escape? quote s with
      | none => none
      | some (bytes, count) =>
        (quoted? quote (s.drop count)).map fun (value, rest) => (bytes ++ value, rest)
    else
      (quoted? quote s).map fun (value, rest) =>
        (String.utf8EncodeChar (if c == '\r' then '\n' else c) ++ value, rest)
termination_by s => s.length
decreasing_by
  · simp only [List.length_drop, List.length_cons]
    omega
  · simp

/-- The rest of a string up to its closing backtick, and the text behind that. -/
def raw? (s : List Char) : Option (Bytes × List Char) :=
  match s.dropWhile (· != '\x60') with
  | [] => none
  | _ :: rest => some ((s.takeWhile (· != '\x60')).flatMap String.utf8EncodeChar, rest)

/-! ## What is behind a string is shorter -/

theorem length_le_of_quoted? {quote : Char} {s rest : List Char} {value : Bytes}
    (h : quoted? quote s = some (value, rest)) : rest.length ≤ s.length := by
  induction s using quoted?.induct quote generalizing value rest with
  | case1 => simp [quoted?] at h
  | case2 c s hq =>
    rw [quoted?, if_pos hq] at h
    cases h
    exact Nat.le_succ _
  | case3 c s hq hn => simp [quoted?, hq, hn] at h
  | case4 c s hq hn hb he => simp [quoted?, hq, hn, hb, he] at h
  | case5 c s hq hn hb bytes count he ih =>
    simp only [quoted?, hq, hn, hb, he, if_true] at h
    obtain ⟨⟨v, r⟩, hv, hm⟩ := Option.map_eq_some_iff.mp h
    cases hm
    have := ih hv
    simp only [List.length_drop] at this
    simp only [List.length_cons]
    omega
  | case6 c s hq hn hb ih =>
    simp only [quoted?, hq, hn, hb] at h
    obtain ⟨⟨v, r⟩, hv, hm⟩ := Option.map_eq_some_iff.mp h
    cases hm
    exact Nat.le_succ_of_le (ih hv)

theorem length_le_of_raw? {s rest : List Char} {value : Bytes} (h : raw? s = some (value, rest)) :
    rest.length ≤ s.length := by
  unfold raw? at h
  split at h
  · cases h
  · next hd =>
    cases h
    have := (List.dropWhile_suffix (l := s) (· != '\x60')).length_le
    rw [hd, List.length_cons] at this
    omega

end Formula

end LayoutMarkup

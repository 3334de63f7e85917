/-!
# Text/Bytes — documents as byte strings

A document is a list of bytes.  Most of it is UTF-8, but nothing promises that, and every offset the
library reports counts bytes; so text stays a list of bytes throughout, and characters are read off
its front when a rule speaks about them (`Text/Glyph`).

Bytes are compared in lexicographic order: `a ≤ b` on lists.
-/

namespace LayoutMarkup

/-- Text as it stands in a document. -/
abbrev Bytes := List UInt8

namespace Bytes

/-- The UTF-8 form of a string. -/
def utf8 (s : String) : Bytes := s.toList.flatMap String.utf8EncodeChar

/-- A number in decimal, with a leading `-` below zero. -/
def decimal (n : Int) : Bytes :=
  (if n < 0 then utf8 "-" else []) ++ (Nat.toDigits 10 n.natAbs).flatMap String.utf8EncodeChar

/-! ## Trimming -/

/-- The text without the bytes at its end that satisfy `p`. -/
def trimEnd (p : UInt8 → Bool) (s : Bytes) : Bytes := (s.reverse.dropWhile p).reverse

/-- The text without the bytes at both ends that satisfy `p`. -/
def trim (p : UInt8 → Bool) (s : Bytes) : Bytes := trimEnd p (s.dropWhile p)

/-! ## Splitting -/

/-- The lines of a text: what stands between its line feeds.  There is always at least one. -/
def lines (s : Bytes) : List Bytes := s.splitOn '\n'.toUInt8

/-- The text before the first occurrence of `mark` and the text after it. -/
def breakOn? (s mark : Bytes) : Option (Bytes × Bytes) :=
  if mark.isPrefixOf s then some ([], s.drop mark.length)
  else match s with
    | [] => none
    | b :: s => (breakOn? s mark).map fun (before, after) => (b :: before, after)

/-- The two parts of a broken text, with the mark between them, are the text. -/
theorem append_of_breakOn? {mark : Bytes} :
    ∀ {s before after : Bytes}, breakOn? s mark = some (before, after) → before ++ mark ++ after = s
  | s, before, after, h => by
    unfold breakOn? at h
    split at h
    · next hp =>
      obtain ⟨rfl, rfl⟩ := by simpa using h
      obtain ⟨t, ht⟩ := List.isPrefixOf_iff_prefix.mp hp
      rw [← ht]
      simp
    · split at h
      · simp at h
      · obtain ⟨⟨x, y⟩, hxy, he⟩ := Option.map_eq_some_iff.mp h
        obtain ⟨rfl, rfl⟩ := by simpa using he
        simpa using append_of_breakOn? hxy

/-! ## ASCII classes -/

/-- Blanks of markup: space, tab, carriage return, line feed and form feed. -/
def isBlank (b : UInt8) : Bool :=
  b == ' '.toUInt8 || b == '\t'.toUInt8 || b == '\r'.toUInt8 || b == '\n'.toUInt8 || b == 0x0C

/-- An ASCII digit. -/
def isDigit (b : UInt8) : Bool := '0'.toUInt8 ≤ b && b ≤ '9'.toUInt8

/-- The words of a text: its stretches without blanks. -/
def words (s : Bytes) : List Bytes := (s.splitOnP isBlank).filter (!·.isEmpty)

/-- The words of a text with a single space between them. -/
def collapse (s : Bytes) : Bytes := (utf8 " ").intercalate (words s)

end Bytes

end LayoutMarkup

import LayoutMarkup.Text.Bytes

/-!
# Text/Glyph — reading text as characters

A byte string is read from the left as a sequence of glyphs: a well-formed UTF-8 sequence is one
character, and a byte that begins none is a glyph of its own.  Reading a glyph always uses up at
least one byte (`length_rest_lt`), which is what ends every loop over a text.
-/

namespace LayoutMarkup

/-- The character whose UTF-8 form the text begins with, if it begins with one. -/
def Bytes.char? (s : Bytes) : Option Char := ByteArray.utf8DecodeChar? ⟨(s.take 4).toArray⟩ 0

@[simp] theorem Bytes.char?_nil : Bytes.char? [] = none := by decide

/-- One unit of a text. -/
inductive Glyph where
  | char (c : Char)
  | stray (b : UInt8)
  deriving DecidableEq, Repr

namespace Glyph

/-- What the glyph takes up in the text. -/
def bytes : Glyph → Bytes
  | char c => String.utf8EncodeChar c
  | stray b => [b]

/-- The character shown for the glyph: U+FFFD stands for a stray byte. -/
def shown : Glyph → Char
  | char c => c
  | stray _ => '�'

/-- Does the glyph satisfy a property of characters?  A stray byte satisfies none. -/
def is (p : Char → Bool) : Glyph → Bool
  | char c => p c
  | stray _ => false

end Glyph

namespace Bytes

/-- The first glyph of a text and the text after it. -/
def glyph? : Bytes → Option (Glyph × Bytes)
  | [] => none
  | b :: s =>
    match char? (b :: s) with
    | some c => some (.char c, (b :: s).drop c.utf8Size)
    | none => some (.stray b, s)

theorem length_rest_lt {s rest : Bytes} {g : Glyph} (h : glyph? s = some (g, rest)) :
    rest.length < s.length := by
  unfold glyph? at h
  split at h
  · simp at h
  · split at h
    · next c _ =>
      obtain ⟨_, rfl⟩ := by simpa using h
      have := c.utf8Size_pos
      simp
      omega
    · obtain ⟨_, rfl⟩ := by simpa using h
      simp

/-- The glyphs of a text, in order. -/
def glyphs (s : Bytes) : List Glyph :=
  match _h : glyph? s with
  | none => []
  | some (g, rest) => g :: glyphs rest
termination_by s.length
decreasing_by exact length_rest_lt _h

/-- The longest stretch of characters satisfying `p` that the text begins with. -/
def takeChars (p : Char → Bool) (s : Bytes) : Bytes :=
  match _h : glyph? s with
  | some (.char c, rest) => if p c then s.take c.utf8Size ++ takeChars p rest else []
  | _ => []
termination_by s.length
decreasing_by exact length_rest_lt _h

/-- The word a text begins with: a character satisfying `start`, and all those after it that satisfy
`part`.  It is empty if the text begins with none. -/
def word (start part : Char → Bool) (s : Bytes) : Bytes :=
  match s.glyph? with
  | some (.char c, _) => if start c then s.takeChars part else []
  | _ => []

@[simp] theorem word_nil (start part : Char → Bool) : word start part [] = [] := rfl

theorem length_pos_of_word {start part : Char → Bool} {s : Bytes} (h : word start part s ≠ []) :
    0 < s.length := by
  rcases s with _ | ⟨b, s⟩
  · exact absurd (word_nil start part) h
  · exact Nat.succ_pos _

/-- The text without the characters at both ends that satisfy `p`. -/
def trimChars (p : Char → Bool) (s : Bytes) : Bytes :=
  (((glyphs s).dropWhile (·.is p)).reverse.dropWhile (·.is p)).reverse.flatMap Glyph.bytes

end Bytes

end LayoutMarkup

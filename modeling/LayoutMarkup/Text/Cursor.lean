import LayoutMarkup.Text.Glyph

/-!
# Text/Cursor — a position in a text

A cursor is an offset together with the text from there on.  Scanners move it forward with `skip`;
no other operation changes it, so the offset always counts the bytes passed.
-/

namespace LayoutMarkup

/-- A position in a text: the number of bytes before it and the text after it. -/
structure Cursor where
  pos : Nat
  rest : Bytes
  deriving DecidableEq, Repr

namespace Cursor

/-- The position before the first byte. -/
def start (s : Bytes) : Cursor := ⟨0, s⟩

/-- The position `n` bytes further on. -/
def skip (c : Cursor) (n : Nat) : Cursor := ⟨c.pos + n, c.rest.drop n⟩

/-- The position after the bytes that satisfy `p`. -/
def skipWhile (c : Cursor) (p : UInt8 → Bool) : Cursor := c.skip (c.rest.takeWhile p).length

/-- The glyph at the position, none at the end. -/
def peek (c : Cursor) : Option Glyph := c.rest.glyph?.map Prod.fst

/-- Is the glyph at the position this character? -/
def at? (c : Cursor) (x : Char) : Bool := c.peek == some (.char x)

@[simp] theorem length_skip (c : Cursor) (n : Nat) :
    (c.skip n).rest.length = c.rest.length - n := by
  simp [skip]

theorem length_skipWhile_le (c : Cursor) (p : UInt8 → Bool) :
    (c.skipWhile p).rest.length ≤ c.rest.length := by
  simp [skipWhile]

/-- There is text left where there is a glyph. -/
theorem length_pos_of_peek {c : Cursor} {g : Glyph} (h : c.peek = some g) : 0 < c.rest.length := by
  obtain ⟨⟨g', rest⟩, hr, _⟩ := Option.map_eq_some_iff.mp h
  exact Nat.lt_of_le_of_lt (Nat.zero_le _) (Bytes.length_rest_lt hr)

end Cursor

end LayoutMarkup

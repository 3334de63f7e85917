import LayoutMarkup.Markup.Fault
import LayoutMarkup.Text.Cursor
import LayoutMarkup.Text.Digit
import LayoutMarkup.Text.Letter

/-!
# Markup/Token — a document as a sequence of tokens

    text  <name key="value" …>  </name>  <!--body-->

A scanner is in one of three modes: between tags, inside a start tag, or behind the key of an
attribute.  Each `step` reads one token and moves on by at least one byte (`length_lt_of_step`), or
stops with a last token that is the end of the text or a fault.
-/

namespace LayoutMarkup

/-! ## Names -/

/-- Can a name begin with the character? -/
def isNameStart (c : Char) : Bool := c == '_' || isLetter c

/-- Can the character stand in a name? -/
def isNamePart (c : Char) : Bool :=
  c == '_' || c == '-' || c == '.' || c == ':' || isLetter c || isDecimalDigit c

/-- The name a text begins with, empty if it begins with none. -/
def Bytes.name (s : Bytes) : Bytes := s.word isNameStart isNamePart

/-! ## Tokens -/

namespace Token

/-- The kinds of tokens. -/
inductive Kind where
  /-- Character data. -/
  | text
  /-- The body of a comment. -/
  | comment
  /-- The name in a start tag. -/
  | tagName
  /-- The name of an attribute. -/
  | key
  /-- The value of an attribute, without its quotes. -/
  | value
  /-- The end of a start tag. -/
  | tagEnd
  /-- The end of a start tag that closes its own element. -/
  | selfClose
  /-- The name in a closing tag. -/
  | closeTag
  /-- The end of the text. -/
  | finish
  /-- Something that no document contains. -/
  | fault (f : Fault)
  deriving DecidableEq, Repr

end Token

/-- A token: what it is, its text, and the offset of that text. -/
structure Token where
  kind : Token.Kind
  text : Bytes
  pos : Nat
  deriving DecidableEq, Repr

namespace Token

/-- Where a scanner stands.  Inside a tag it remembers the offset where the tag began. -/
inductive Mode where
  /-- Between tags. -/
  | content
  /-- Inside a start tag. -/
  | tag (start : Nat)
  /-- Behind the key of an attribute. -/
  | value (start : Nat)
  deriving DecidableEq, Repr

/-- What a step of a scanner does. -/
inductive Step where
  /-- Reads a token and goes on. -/
  | emit (token : Token) (mode : Mode) (next : Cursor)
  /-- Stops with a last token. -/
  | halt (token : Token)
  deriving DecidableEq, Repr

/-- Stops with a fault at an offset. -/
def fail (pos : Nat) (f : Fault) : Step := .halt ⟨.fault f, [], pos⟩

/-- Stops because of the glyph at the cursor: at the end of the text the tag that began at `start`
stays open, any other glyph is out of place. -/
def misplaced (start : Nat) (place : Fault.Place) (c : Cursor) : Step :=
  match c.peek with
  | none => fail start .unterminatedTag
  | some g => fail c.pos (.unexpectedGlyph place g)

/-- The comment whose opening delimiter stands at the cursor. -/
def comment (c : Cursor) : Step :=
  let body := c.skip 4
  match body.rest.breakOn? (Bytes.utf8 "-->") with
  | none => fail c.pos .unterminatedComment
  | some (text, _) => .emit ⟨.comment, text, body.pos⟩ .content (body.skip (text.length + 3))

/-- The closing tag that begins at the cursor. -/
def closeTag (c : Cursor) : Step :=
  let inner := c.skip 2
  let name := inner.rest.name
  if name.isEmpty then misplaced c.pos .afterClosing inner
  else
    let behind := (inner.skip name.length).skipWhile Bytes.isBlank
    if behind.at? '>' then .emit ⟨.closeTag, name, inner.pos⟩ .content (behind.skip 1)
    else misplaced c.pos .inClosingTag behind

/-- The beginning of a start tag at the cursor. -/
def openTag (c : Cursor) : Step :=
  let inner := c.skip 1
  let name := inner.rest.name
  if name.isEmpty then misplaced c.pos .afterOpening inner
  else .emit ⟨.tagName, name, inner.pos⟩ (.tag c.pos) (inner.skip name.length)

/-- A step between tags. -/
def content (c : Cursor) : Step :=
  let text := c.rest.takeWhile (· != '<'.toUInt8)
  if c.rest.isEmpty then .halt ⟨.finish, [], c.pos⟩
  else if !text.isEmpty then .emit ⟨.text, text, c.pos⟩ .content (c.skip text.length)
  else if (Bytes.utf8 "<!--").isPrefixOf c.rest then comment c
  else if (Bytes.utf8 "</").isPrefixOf c.rest then closeTag c
  else openTag c

/-- A step inside the start tag that began at `start`. -/
def inTag (start : Nat) (before : Cursor) : Step :=
  let c := before.skipWhile Bytes.isBlank
  let name := c.rest.name
  if !name.isEmpty then .emit ⟨.key, name, c.pos⟩ (.value start) (c.skip name.length)
  else if c.at? '>' then .emit ⟨.tagEnd, Bytes.utf8 ">", c.pos⟩ .content (c.skip 1)
  else if c.at? '/' then
    let behind := c.skip 1
    if behind.at? '>' then .emit ⟨.selfClose, Bytes.utf8 "/>", c.pos⟩ .content (c.skip 2)
    else misplaced start .afterSlash behind
  else misplaced start .inTag c

/-- A step behind a key in the start tag that began at `start`. -/
def inValue (start : Nat) (before : Cursor) : Step :=
  let c := before.skipWhile Bytes.isBlank
  if c.at? '=' then
    let quote := (c.skip 1).skipWhile Bytes.isBlank
    if quote.at? '"' then
      let inner := quote.skip 1
      let text := inner.rest.takeWhile (· != '"'.toUInt8)
      if text.length = inner.rest.length then fail quote.pos .unterminatedValue
      else .emit ⟨.value, text, inner.pos⟩ (.tag start) (inner.skip (text.length + 1))
    else misplaced start .beforeValue quote
  else misplaced start .afterKey c

/-- One step of the scanner. -/
def step : Mode → Cursor → Step
  | .content, c => content c
  | .tag start, c => inTag start c
  | .value start, c => inValue start c

/-! ## Every step moves on -/

theorem misplaced_ne_emit {start : Nat} {place : Fault.Place} {c c' : Cursor} {t : Token}
    {m : Mode} :
    misplaced start place c ≠ .emit t m c' := by
  unfold misplaced fail
  split <;> simp

theorem length_pos_of_at? {c : Cursor} {x : Char} (h : c.at? x = true) : 0 < c.rest.length :=
  Cursor.length_pos_of_peek (beq_iff_eq.mp h)

theorem length_lt_of_comment {c c' : Cursor} {t : Token} {m : Mode} (hc : 0 < c.rest.length)
    (h : comment c = .emit t m c') : c'.rest.length < c.rest.length := by
  unfold comment at h
  simp only at h
  split at h
  · simp [fail] at h
  · obtain ⟨_, _, rfl⟩ := by simpa using h
    simp only [Cursor.length_skip]
    omega

theorem length_lt_of_closeTag {c c' : Cursor} {t : Token} {m : Mode} (hc : 0 < c.rest.length)
    (h : closeTag c = .emit t m c') : c'.rest.length < c.rest.length := by
  unfold closeTag at h
  simp only at h
  split at h
  · exact absurd h misplaced_ne_emit
  · split at h
    · obtain ⟨_, _, rfl⟩ := by simpa using h
      have := Cursor.length_skipWhile_le ((c.skip 2).skip (c.skip 2).rest.name.length) Bytes.isBlank
      simp only [Cursor.length_skip] at this ⊢
      omega
    · exact absurd h misplaced_ne_emit

theorem length_lt_of_openTag {c c' : Cursor} {t : Token} {m : Mode} (hc : 0 < c.rest.length)
    (h : openTag c = .emit t m c') : c'.rest.length < c.rest.length := by
  unfold openTag at h
  simp only at h
  split at h
  · exact absurd h misplaced_ne_emit
  · obtain ⟨_, _, rfl⟩ := by simpa using h
    simp only [Cursor.length_skip]
    omega

theorem length_lt_of_content {c c' : Cursor} {t : Token} {m : Mode} (h : content c = .emit t m c') :
    c'.rest.length < c.rest.length := by
  unfold content at h
  simp only at h
  split at h
  · simp at h
  · next hne =>
    have hpos : 0 < c.rest.length := List.length_pos_iff.mpr (mt List.isEmpty_iff.mpr hne)
    split at h
    · next ht =>
      obtain ⟨_, _, rfl⟩ := by simpa using h
      have := List.length_pos_iff.mpr (List.isEmpty_eq_false_iff.mp ((Bool.not_eq_true' _).mp ht))
      simp only [Cursor.length_skip]
      omega
    · split at h
      · exact length_lt_of_comment hpos h
      · split at h
        · exact length_lt_of_closeTag hpos h
        · exact length_lt_of_openTag hpos h

theorem length_lt_of_inTag {start : Nat} {c c' : Cursor} {t : Token} {m : Mode}
    (h : inTag start c = .emit t m c') : c'.rest.length < c.rest.length := by
  have hle := Cursor.length_skipWhile_le c Bytes.isBlank
  unfold inTag at h
  simp only at h
  split at h
  · next hn =>
    obtain ⟨_, _, rfl⟩ := by simpa using h
    have hne : (c.skipWhile Bytes.isBlank).rest.name ≠ [] :=
      List.isEmpty_eq_false_iff.mp ((Bool.not_eq_true' _).mp hn)
    have := Bytes.length_pos_of_word hne
    have := List.length_pos_iff.mpr hne
    simp only [Cursor.length_skip]
    omega
  · split at h
    · next hx =>
      obtain ⟨_, _, rfl⟩ := by simpa using h
      have := length_pos_of_at? hx
      simp only [Cursor.length_skip]
      omega
    · split at h
      · next hx =>
        split at h
        · obtain ⟨_, _, rfl⟩ := by simpa using h
          have := length_pos_of_at? hx
          simp only [Cursor.length_skip]
          omega
        · exact absurd h misplaced_ne_emit
      · exact absurd h misplaced_ne_emit

theorem length_lt_of_inValue {start : Nat} {c c' : Cursor} {t : Token} {m : Mode}
    (h : inValue start c = .emit t m c') : c'.rest.length < c.rest.length := by
  have hle := Cursor.length_skipWhile_le c Bytes.isBlank
  unfold inValue at h
  simp only at h
  split at h
  · next hx =>
    have hpos := length_pos_of_at? hx
    split at h
    · split at h
      · simp [fail] at h
      · obtain ⟨_, _, rfl⟩ := by simpa using h
        have := Cursor.length_skipWhile_le ((c.skipWhile Bytes.isBlank).skip 1) Bytes.isBlank
        simp only [Cursor.length_skip] at this ⊢
        omega
    · exact absurd h misplaced_ne_emit
  · exact absurd h misplaced_ne_emit

/-- **A step that reads a token moves on.** -/
theorem length_lt_of_step {m m' : Mode} {c c' : Cursor} {t : Token}
    (h : step m c = .emit t m' c') : c'.rest.length < c.rest.length := by
  cases m with
  | content => exact length_lt_of_content h
  | tag start => exact length_lt_of_inTag h
  | value start => exact length_lt_of_inValue h

/-! ## The tokens of a text -/

/-- The tokens from a cursor on; the last one, and only that, is the end of the text or a fault. -/
def scanFrom (m : Mode) (c : Cursor) : List Token :=
  match _h : step m c with
  | .halt t => [t]
  | .emit t m' c' => t :: scanFrom m' c'
termination_by c.rest.length
decreasing_by exact length_lt_of_step _h

/-- The tokens of a text. -/
def scan (src : Bytes) : List Token := scanFrom .content (.start src)

end Token

end LayoutMarkup

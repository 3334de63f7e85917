import LayoutMarkup.Proofs.OpenElements

/-!
# Proofs/Places — errors are where they say

`Document.place_of_parse`: the span of an error is a stretch of the text, its line and column count
what stands before it, and what the fault speaks of stands there.

All of that is read off the text: `Document.FailsAt` says at what the text is refused, and the rest
follows from the way it is cut there.
-/

namespace LayoutMarkup

/-! ## Lines and columns -/

/-- The span is the stretch of `length` bytes at the offset: the line counts the line feeds before
it, and the column the glyphs behind the last of them. -/
structure Span.Covers (s : Span) (src : Bytes) (offset length : Nat) : Prop where
  offset_eq : s.offset = offset
  length_eq : s.length = length
  within : offset + length ≤ src.length
  line_eq : s.line - 1 = (src.take offset).count '\n'.toUInt8
  column_eq : ∃ above line : Bytes, src.take offset = above ++ line ∧ '\n'.toUInt8 ∉ line ∧
    (∀ b ∈ above.getLast?, b = '\n'.toUInt8) ∧ s.column - 1 = line.glyphs.length

/-- The last line of a text, and what stands above it. -/
theorem Bytes.exists_above (s : Bytes) :
    ∃ above : Bytes, s = above ++ (s.reverse.takeWhile (· != '\n'.toUInt8)).reverse ∧
      '\n'.toUInt8 ∉ (s.reverse.takeWhile (· != '\n'.toUInt8)).reverse ∧
      ∀ b ∈ above.getLast?, b = '\n'.toUInt8 := by
  refine ⟨(s.reverse.dropWhile (· != '\n'.toUInt8)).reverse, ?_, fun hmem => ?_, ?_⟩
  · rw [← List.reverse_append, List.takeWhile_append_dropWhile, List.reverse_reverse]
  · simpa using List.mem_takeWhile_imp (List.mem_reverse.mp hmem)
  · rw [List.getLast?_reverse]
    simpa using head?_dropWhile (p := (· != '\n'.toUInt8)) (s := s.reverse)

theorem Span.covers_locate {src : Bytes} {offset length : Nat} (h : offset + length ≤ src.length) :
    (Span.locate src offset length).Covers src offset length where
  offset_eq := by
    simp only [locate, List.length_take]
    omega
  length_eq := by
    simp only [locate]
    omega
  within := h
  line_eq := by simp [locate]
  column_eq := by
    obtain ⟨above, hsplit, hline, habove⟩ := Bytes.exists_above (src.take offset)
    exact ⟨above, _, hsplit, hline, habove, Int.add_sub_cancel ..⟩

/-! ## What stands at a fault -/

/-- A closing tag with the name begins at the offset. -/
def Bytes.ClosesAt (src : Bytes) (pos : Nat) (name : Bytes) : Prop :=
  ∃ w rest : Bytes, src.drop pos = Bytes.utf8 "</" ++ name ++ w ++ Bytes.utf8 ">" ++ rest ∧
    name.IsName ∧ ∀ b ∈ w, Bytes.isBlank b = true

/-- What the fault speaks of stands at the offset, and as much of it is marked as the length
says. -/
def Fault.StandsAt (src : Bytes) (pos length : Nat) : Fault → Prop
  | unterminatedTag => Bytes.utf8 "<" <+: src.drop pos ∧ length = 1
  | unterminatedComment => Bytes.utf8 "<!--" <+: src.drop pos ∧ length = 1
  | unterminatedValue => Bytes.utf8 "\"" <+: src.drop pos ∧ length = 1
  | unexpectedGlyph _ g =>
    src.drop pos ≠ [] ∧ (∃ rest, Bytes.glyph? (src.drop pos) = some (g, rest)) ∧ length = 1
  -- The scanner and the builder agree on where they are, so there is no such token.
  | unexpectedToken _ _ => False
  | mismatchedClose name _ => src.ClosesAt pos name ∧ length = name.length + 3
  | unclosed _ _ => src.drop pos = [] ∧ length = 0
  | tooDeep _ => ∃ name, src.OpensAt pos name ∧ length = name.length + 1

/-- What stands at an offset lies within the text. -/
theorem Bytes.add_length_le {src s : Bytes} {pos : Nat} (h : s <+: src.drop pos) (hne : s ≠ []) :
    pos + s.length ≤ src.length := by
  have hle := h.length_le
  have hpos := List.length_pos_iff.mpr hne
  rw [List.length_drop] at hle
  omega

/-- A start tag begins with its name. -/
theorem StartTag.Written.opensAt {tag : StartTag} {front u : Bytes} (h : tag.Written u)
    (rest : Bytes) : (front ++ (u ++ Bytes.utf8 ">" ++ rest)).OpensAt front.length tag.name := by
  obtain @⟨name, v, w, as, hname, has, hgap, hw⟩ := h
  refine ⟨v ++ (w ++ (Bytes.utf8 ">" ++ rest)), ?_, hname, ?_⟩
  · rw [List.drop_left]
    simp only [List.append_assoc]
  · exact Builder.stops_of_attributes hgap hw (Bytes.stops_cons (by decide) (by decide) _)

/-! ## The place of an error -/

namespace Document

variable {o : ParseOptions} {src : Bytes} {chain : List StartTag} {f : Fault} {offset length : Nat}

/-- **What a text is refused for stands where it is said to stand.** -/
theorem FailsAt.standsAt (h : FailsAt o src chain f offset length) :
    f.StandsAt src offset length := by
  cases h with
  | unterminatedTag hsrc _ hrest =>
    rw [hsrc, Fault.StandsAt, List.drop_left]
    exact ⟨hrest.begun, rfl⟩
  | unterminatedComment hsrc _ _ hcomment =>
    rw [hsrc, Fault.StandsAt, List.drop_left]
    exact ⟨hcomment, rfl⟩
  | unterminatedValue hsrc =>
    rw [hsrc, ← List.append_assoc, Fault.StandsAt, List.drop_left]
    exact ⟨List.prefix_append _ _, rfl⟩
  | unexpectedGlyph hsrc _ _ hglyph =>
    rw [hsrc, ← List.append_assoc, Fault.StandsAt, List.drop_left]
    refine ⟨?_, ⟨_, hglyph⟩, rfl⟩
    rintro rfl
    contradiction
  | mismatchedClose hsrc _ hname hw =>
    rw [hsrc, Fault.StandsAt, Bytes.ClosesAt, List.drop_left]
    exact ⟨⟨_, _, rfl, hname, hw⟩, rfl⟩
  | unclosed => exact ⟨List.drop_length, rfl⟩
  | tooDeep hsrc _ htag =>
    rw [hsrc]
    exact ⟨_, htag.opensAt _, rfl⟩

/-- What is marked lies in the text. -/
theorem FailsAt.add_length_le (h : FailsAt o src chain f offset length) :
    offset + length ≤ src.length := by
  have hstands := h.standsAt
  cases h with
  | unterminatedTag => exact Bytes.add_length_le hstands.1 (by decide)
  | unterminatedComment =>
    have hone : Bytes.utf8 "<" <+: Bytes.utf8 "<!--" := by decide
    exact Bytes.add_length_le (hone.trans hstands.1) (by decide)
  | unterminatedValue => exact Bytes.add_length_le hstands.1 (by decide)
  | unexpectedGlyph => exact Nat.lt_of_not_le (mt List.drop_eq_nil_of_le hstands.1)
  | mismatchedClose =>
    obtain ⟨⟨w, rest, hdrop, -⟩, -⟩ := hstands
    have hle := Bytes.add_length_le ⟨rest, hdrop.symm⟩ (by simp [utf8_openClosing])
    refine Nat.le_trans ?_ hle
    simp [utf8_openClosing, utf8_close]
  | unclosed => exact Nat.le_refl _
  | tooDeep =>
    obtain ⟨name, ⟨rest, hdrop, -⟩, hlength⟩ := hstands
    have hle := Bytes.add_length_le ⟨rest, hdrop.symm⟩ (by simp [utf8_open])
    rw [hlength]
    refine Nat.le_trans ?_ hle
    simp [utf8_open]

/-- The stretch that an error marks lies in the text that was read. -/
theorem within_of_parse {e : ParseError} (h : parse o src = .error e) :
    e.source = src ∧ e.offset + e.length ≤ src.length :=
  ⟨(failsAt_of_parse h).1, (failsAt_of_parse h).2.add_length_le⟩

/-- **Every error is where it says.**  Its span lies in the text, line and column are those of its
offset, and what the fault speaks of stands there.  And it is that at which the text is refused:
behind the elements that are open and complete siblings, it is a tag or comment that does not come
to its end, a closing tag that does not match, the end of the text, or a start tag with as many
elements around it as are allowed. -/
theorem place_of_parse {e : ParseError} (h : parse o src = .error e) :
    ∃ offset length, e.span.Covers src offset length ∧ e.fault.StandsAt src offset length ∧
      FailsAt o src e.chain e.fault offset length := by
  obtain ⟨rfl, hfails⟩ := failsAt_of_parse h
  exact ⟨e.offset, e.length, Span.covers_locate hfails.add_length_le, hfails.standsAt, hfails⟩

/-- A start tag on the second line, behind a tab, a character of two bytes, a stray byte and a tag
that closes its own element.  It would open a second element, and only one may be open. -/
theorem place_of_parse_stray :
    ∃ src e, parse ⟨Vocabulary.standard.void, 1⟩ src = .error e ∧ e.fault.kind = .tooDeep ∧
      e.span = ⟨12, 2, 8, 3⟩ ∧
      ∃ offset length, e.span.Covers src offset length ∧ e.fault.StandsAt src offset length ∧
        FailsAt ⟨Vocabulary.standard.void, 1⟩ src e.chain e.fault offset length := by
  have h : parse ⟨Vocabulary.standard.void, 1⟩
        (Bytes.utf8 "<p>\n\té" ++ [0xFF] ++ Bytes.utf8 "<i/><qr k=\"v\">") =
      .error ⟨.tooDeep 1, 12, 3, [⟨Bytes.utf8 "p", []⟩],
        Bytes.utf8 "<p>\n\té" ++ [0xFF] ++ Bytes.utf8 "<i/><qr k=\"v\">"⟩ := by
    decide +kernel
  exact ⟨_, _, h, rfl, by decide +kernel, place_of_parse h⟩

end Document

end LayoutMarkup

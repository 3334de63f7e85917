import LayoutMarkup.Proofs.Lines
import LayoutMarkup.Proofs.Places
import LayoutMarkup.Proofs.Trimming

/-!
# Proofs/Excerpts — the lines around an error, and the carets below it

An error says in which line it is by counting line feeds, and an excerpt finds its lines by
splitting the text; the two agree (`Bytes.length_lines`), so the line of an error is there.  The
bounds of an excerpt are computed in 64 bits.  `Document.excerpt_of_parse`: the lines are those of
the neighbourhood as long as the upper bound does not wrap around, and none at all when it does.

Below the line, as many blanks stand as there are glyphs before the error, and as many carets as the
error covers bytes.  `Document.caret_of_parse`: these are as many as it covers glyphs just if every
one of them is a single byte.
-/

namespace LayoutMarkup

/-! ## Lines by number -/

namespace Bytes

theorem length_lines (s : Bytes) : s.lines.length = s.count lf + 1 := by
  induction s using lines_induction with
  | line l hl => rw [lines_of_not_mem hl, List.count_eq_zero.mpr hl, List.length_singleton]
  | cons l s hl ih =>
    rw [lines_append_cons hl, List.length_cons, ih, List.count_append, List.count_cons_self,
      List.count_eq_zero.mpr hl, Nat.zero_add]

/-- The line of a text with a number; the first line has the number 1. -/
def line? (s : Bytes) (number : Int) : Option Bytes :=
  if 1 ≤ number then s.lines[(number - 1).toNat]? else none

end Bytes

/-- The line is the one of the text with its number, but for the carriage returns at its end. -/
def NumberedLine.IsLineOf (l : NumberedLine) (src : Bytes) : Prop :=
  ∃ w : Bytes, src.line? l.number = some (l.text ++ w) ∧ (∀ b ∈ w, b = '\r'.toUInt8) ∧
    l.text.getLast? ≠ some '\r'.toUInt8

namespace Excerpt

/-- The lines are those of the text from number `first` to number `last`, in order. -/
structure Shows (src : Bytes) (first last : Int) (lines : List NumberedLine) : Prop where
  length_eq : lines.length = (last + 1 - first).toNat
  number_eq : ∀ i (h : i < lines.length), lines[i].number = first + i
  isLineOf : ∀ l ∈ lines, l.IsLineOf src

/-- What is selected from numbered items by a range of numbers is a stretch of them. -/
theorem filterMap_zipIdx {α β : Type} (f : α × Nat → β) (first last : Int) (l : List α) (k : Nat) :
    ((l.zipIdx k).filterMap fun x => if first ≤ x.2 ∧ x.2 ≤ last then some (f x) else none)
      = (((l.zipIdx k).take (last + 1 - k).toNat).drop (first - k).toNat).map f := by
  induction l generalizing k with
  | nil => simp
  | cons a l ih =>
    rw [List.zipIdx_cons, List.filterMap_cons, ih (k + 1)]
    by_cases hlast : (k : Int) ≤ last
    · have htake : (last + 1 - k).toNat = (last + 1 - (k + 1 : Nat)).toNat + 1 := by omega
      rw [htake, List.take_succ_cons]
      by_cases hfirst : first ≤ k
      · have hdrop : (first - k).toNat = 0 := by omega
        have hdrop' : (first - (k + 1 : Nat)).toNat = 0 := by omega
        rw [if_pos ⟨hfirst, hlast⟩, hdrop, hdrop']
        rfl
      · have hdrop : (first - k).toNat = (first - (k + 1 : Nat)).toNat + 1 := by omega
        rw [if_neg fun h => hfirst h.1, hdrop, List.drop_succ_cons]
    · have htake : (last + 1 - k).toNat = 0 := by omega
      have htake' : (last + 1 - (k + 1 : Nat)).toNat = 0 := by omega
      rw [if_neg fun h => hlast h.2, htake, htake', List.take_zero, List.take_zero, List.drop_nil,
        List.drop_nil]

/-- The carriage returns at the end of a line are what an excerpt leaves out. -/
theorem isLineOf_trimEnd {src line : Bytes} {i : Nat} (h : src.lines[i]? = some line) :
    NumberedLine.IsLineOf ⟨i + 1, line.trimEnd (· == '\r'.toUInt8)⟩ src := by
  obtain ⟨w, hw, hcr, hlast⟩ := Bytes.exists_of_trimEnd (· == '\r'.toUInt8) line
  refine ⟨w, ?_, fun b hb => eq_of_beq (hcr b hb), fun hend => ?_⟩
  · have hpos : (1 : Int) ≤ i + 1 := by omega
    have hindex : ((i : Int) + 1 - 1).toNat = i := by omega
    rw [Bytes.line?, if_pos hpos, hindex, h, ← hw]
  · simpa using hlast _ hend

/-- **What is selected are the lines of the range, as far as the text has them.** -/
theorem shows_select (src : Bytes) (first last : Int) :
    Shows src (max 1 first) (min src.lines.length last) (select src first last) := by
  have hselect := filterMap_zipIdx
    (fun x => NumberedLine.mk x.2 (x.1.trimEnd (· == '\r'.toUInt8))) first last src.lines 1
  have hlen : (select src first last).length
      = min last.toNat src.lines.length - (first - 1).toNat := by
    rw [select, hselect]
    simp
  have hget : ∀ i (h : i < (select src first last).length), ∃ line,
      src.lines[(first - 1).toNat + i]? = some line ∧ (select src first last)[i]
        = ⟨((first - 1).toNat + i : Nat) + 1, line.trimEnd (· == '\r'.toUInt8)⟩ := by
    intro i h
    have hi : (first - 1).toNat + i < src.lines.length := by omega
    refine ⟨src.lines[(first - 1).toNat + i], List.getElem?_eq_getElem hi, ?_⟩
    simp only [select, hselect]
    simp
    omega
  refine ⟨by rw [hlen]; omega, fun i h => ?_, fun l hl => ?_⟩
  · obtain ⟨line, -, hi⟩ := hget i h
    rw [hi]
    simp only
    omega
  · obtain ⟨i, h, rfl⟩ := List.mem_iff_getElem.mp hl
    obtain ⟨line, hline, hi⟩ := hget i h
    rw [hi]
    exact isLineOf_trimEnd hline

/-! ## Bounds in 64 bits -/

theorem wrap_of_lt {n : Int} (hlow : -2 ^ 63 ≤ n) (hhigh : n < 2 ^ 63) : wrap n = n := by
  rw [wrap, Int.bmod_def]
  norm_num
  omega

/-- Beyond the largest number of 64 bits, counting goes on from the smallest. -/
theorem wrap_of_le {n : Int} (hlow : 2 ^ 63 ≤ n) (hhigh : n < 2 ^ 64) : wrap n = n - 2 ^ 64 := by
  rw [wrap, Int.bmod_def]
  norm_num
  omega

/-- A number in the range is that of a line. -/
theorem Shows.exists_mem {src : Bytes} {first last n : Int} {lines : List NumberedLine}
    (h : Shows src first last lines) (hfirst : first ≤ n) (hlast : n ≤ last) :
    ∃ l ∈ lines, l.number = n := by
  have hlen := h.length_eq
  have hi : (n - first).toNat < lines.length := by omega
  exact ⟨_, List.getElem_mem hi, by rw [h.number_eq]; omega⟩

/-- A range of one number is that of one line. -/
theorem Shows.eq_singleton {src : Bytes} {n : Int} {lines : List NumberedLine}
    (h : Shows src n n lines) : ∃ l, lines = [l] ∧ l.number = n ∧ l.IsLineOf src := by
  have hlen := h.length_eq
  obtain ⟨l, rfl⟩ := List.length_eq_one_iff.mp (show lines.length = 1 by omega)
  exact ⟨l, rfl, by simpa using h.number_eq 0, h.isLineOf l List.mem_cons_self⟩

end Excerpt

/-! ## The lines around an error -/

theorem Span.one_le_line (src : Bytes) (offset length : Nat) :
    1 ≤ (Span.locate src offset length).line := by
  simp only [locate]
  omega

/-- The line of a place is one of the lines of the text. -/
theorem Span.line_le (src : Bytes) (offset length : Nat) :
    (Span.locate src offset length).line ≤ src.lines.length := by
  have hcount := (List.take_sublist offset src).count_le '\n'.toUInt8
  rw [Bytes.length_lines, Bytes.lf]
  simp only [locate]
  omega

/-- An error always has an excerpt. -/
theorem ParseError.excerpt?_eq (e : ParseError) (radius : Int) :
    e.excerpt? radius = some
      ⟨Excerpt.select e.source (Excerpt.wrap (e.span.line - radius))
        (Excerpt.wrap (e.span.line + radius)), e.span.line, e.span.column, e.span.length⟩ := by
  have hline := Span.one_le_line e.source e.offset e.length
  have hset : e.span.isUnset = false := by
    rw [Span.isUnset, beq_eq_false_iff_ne]
    rw [← span] at hline
    omega
  rw [excerpt?, Excerpt.around?, hset]
  rfl

/-- **The lines around an error.**  They are the lines at most `radius` away from that of the error,
as far as the text has them, if the number of the last one fits into 64 bits; otherwise there is no
line at all. -/
theorem Document.excerpt_of_parse {o : ParseOptions} {src : Bytes} {e : ParseError} {radius : Int}
    (h : parse o src = .error e) (hradius : 0 ≤ radius) (hbits : radius < 2 ^ 63) :
    ∃ x, e.excerpt? radius = some x ∧
      (e.span.line + radius < 2 ^ 63 →
        Excerpt.Shows src (max 1 (e.span.line - radius))
          (min src.lines.length (e.span.line + radius)) x.lines ∧
        ∃ l ∈ x.lines, l.number = e.span.line) ∧
      (e.span.line < 2 ^ 63 → 2 ^ 63 ≤ e.span.line + radius → x.lines = []) := by
  obtain ⟨rfl, -⟩ := within_of_parse h
  have hpos : 1 ≤ e.span.line := Span.one_le_line ..
  have hle : e.span.line ≤ e.source.lines.length := Span.line_le ..
  refine ⟨_, e.excerpt?_eq radius, fun hfits => ?_, fun hline hover => ?_⟩
  · rw [Excerpt.wrap_of_lt (by omega) (by omega), Excerpt.wrap_of_lt (by omega) hfits]
    have hshows := Excerpt.shows_select e.source (e.span.line - radius) (e.span.line + radius)
    exact ⟨hshows, hshows.exists_mem (by omega) (by omega)⟩
  · rw [Excerpt.wrap_of_le hover (by omega)]
    have hshows := Excerpt.shows_select e.source (Excerpt.wrap (e.span.line - radius))
      (e.span.line + radius - 2 ^ 64)
    exact List.length_eq_zero_iff.mp (by rw [hshows.length_eq]; omega)

/-- The line of the error is the second of three, and the radius reaches beyond both ends. -/
theorem Document.excerpt_of_parse_clamped :
    ∃ src e x, parse {} src = .error e ∧ e.excerpt? (2 ^ 62) = some x ∧
      e.span.line + 2 ^ 62 < 2 ^ 63 ∧
      Excerpt.Shows src (max 1 (e.span.line - 2 ^ 62)) (min src.lines.length (e.span.line + 2 ^ 62))
        x.lines ∧ x.lines = [⟨1, Bytes.utf8 "<p>"⟩, ⟨2, Bytes.utf8 " </q>"⟩, ⟨3, []⟩] := by
  have h : parse {} (Bytes.utf8 "<p>\r\n </q>\n") =
      .error ⟨.mismatchedClose (Bytes.utf8 "q") (some (Bytes.utf8 "p")), 6, 4,
        [⟨Bytes.utf8 "p", []⟩], Bytes.utf8 "<p>\r\n </q>\n"⟩ := by
    decide +kernel
  obtain ⟨x, hx, hfits, -⟩ := excerpt_of_parse h (show (0 : Int) ≤ 2 ^ 62 by decide) (by decide)
  refine ⟨_, _, x, h, hx, by decide +kernel, (hfits (by decide +kernel)).1, ?_⟩
  obtain rfl := Option.some.inj (hx.symm.trans (ParseError.excerpt?_eq ..))
  decide +kernel

/-- With the largest radius of 64 bits, the excerpt of a text of one line is without that line. -/
theorem Document.excerpt_of_parse_wrapped :
    ∃ src e x, parse {} src = .error e ∧ e.excerpt? (2 ^ 63 - 1) = some x ∧ x.lines = [] ∧
      ¬ Excerpt.Shows src (max 1 (e.span.line - (2 ^ 63 - 1)))
        (min src.lines.length (e.span.line + (2 ^ 63 - 1))) x.lines := by
  have h : parse {} (Bytes.utf8 "</a>") =
      .error ⟨.mismatchedClose (Bytes.utf8 "a") none, 0, 4, [], Bytes.utf8 "</a>"⟩ := by
    decide +kernel
  refine ⟨_, _, _, h, ParseError.excerpt?_eq .., by decide +kernel, fun hshows => ?_⟩
  exact absurd hshows.length_eq (by decide +kernel)

/-! ## The carets below an error -/

namespace Bytes

theorem one_le_length_bytes (g : Glyph) : 1 ≤ g.bytes.length := by
  rcases g with c | b
  · rw [Glyph.bytes, String.length_utf8EncodeChar]
    exact c.utf8Size_pos
  · rw [Glyph.bytes, List.length_singleton]

/-- Glyphs take up as many bytes as there are of them, just if each is a single byte. -/
theorem length_flatMap_bytes (gs : List Glyph) :
    gs.length ≤ (gs.flatMap Glyph.bytes).length ∧
      ((gs.flatMap Glyph.bytes).length = gs.length ↔ ∀ g ∈ gs, g.bytes.length = 1) := by
  induction gs with
  | nil => simp
  | cons g gs ih =>
    obtain ⟨hle, hiff⟩ := ih
    have hpos := one_le_length_bytes g
    rw [List.flatMap_cons, List.length_append, List.length_cons, List.forall_mem_cons, ← hiff]
    omega

/-- Bytes and glyphs of a text, each counted as one at least, are as many just if every glyph is a
single byte. -/
theorem max_length_eq_iff (s : Bytes) :
    max s.length 1 = max s.glyphs.length 1 ↔ ∀ g ∈ s.glyphs, g.bytes.length = 1 := by
  have hglyphs := length_flatMap_bytes s.glyphs
  rw [flatMap_glyphs] at hglyphs
  rw [← hglyphs.2]
  rcases s with _ | ⟨b, s⟩
  · simp
  · have hne : 0 < (glyphs (b :: s)).length := by
      rw [List.length_pos_iff]
      intro hnil
      have hall := flatMap_glyphs (b :: s)
      rw [hnil] at hall
      contradiction
    rw [List.length_cons] at hglyphs ⊢
    omega

end Bytes

/-- The stretch of the text that a span covers. -/
def Span.stretch (s : Span) (src : Bytes) : Bytes := (src.drop s.offset.toNat).take s.length.toNat

theorem Span.Covers.length_stretch {s : Span} {src : Bytes} {offset length : Nat}
    (h : s.Covers src offset length) : (s.stretch src).length = length := by
  have hwithin := h.within
  rw [stretch, h.offset_eq, h.length_eq, Int.toNat_natCast, Int.toNat_natCast, List.length_take,
    List.length_drop]
  omega

/-- The blanks stand below the glyphs, one for each: a tab below a tab, a space below all else. -/
def Excerpt.Below (gs : List Glyph) (blanks : Bytes) : Prop :=
  List.Forall₂ (fun g b => b = if g = .char '\t' then '\t'.toUInt8 else ' '.toUInt8) gs blanks

theorem Excerpt.below_blankFor (gs : List Glyph) : Below gs (gs.map blankFor) := by
  refine List.forall₂_map_right_iff.mpr (List.forall₂_same.mpr fun g _ => ?_)
  rw [blankFor.eq_def]
  split
  · rw [if_pos rfl]
  · next hne => rw [if_neg fun h => hne h]

/-- **The carets below an error.**  Below its line stand blanks for the glyphs before its column,
and then a caret for each byte that it covers, at least one.  There are as many carets as glyphs
just if every glyph that is covered is a single byte. -/
theorem Document.caret_of_parse {o : ParseOptions} {src : Bytes} {e : ParseError}
    (h : parse o src = .error e) (hline : e.span.line < 2 ^ 63) :
    ∃ x text blanks carets, e.excerpt? 0 = some x ∧
      NumberedLine.IsLineOf ⟨e.span.line, text⟩ src ∧
      Excerpt.Below (text.glyphs.take (e.span.column - 1).toNat) blanks ∧
      x.caret = text ++ Bytes.utf8 "\n" ++ blanks ++ List.replicate carets '^'.toUInt8 ∧
      carets = max (e.span.stretch src).length 1 ∧
      (carets = max (e.span.stretch src).glyphs.length 1 ↔
        ∀ g ∈ (e.span.stretch src).glyphs, g.bytes.length = 1) := by
  obtain ⟨rfl, hwithin⟩ := within_of_parse h
  have hcovers : e.span.Covers e.source e.offset e.length := Span.covers_locate hwithin
  have hpos : 1 ≤ e.span.line := Span.one_le_line ..
  have hle : e.span.line ≤ e.source.lines.length := Span.line_le ..
  have hlength := hcovers.length_eq
  have hshows := Excerpt.shows_select e.source e.span.line e.span.line
  rw [max_eq_right hpos, min_eq_right hle] at hshows
  obtain ⟨⟨n, text⟩, hlines, rfl, hisLine⟩ := hshows.eq_singleton
  have hexcerpt := e.excerpt?_eq 0
  rw [Int.sub_zero, Int.add_zero, Excerpt.wrap_of_lt (by omega) hline, hlines] at hexcerpt
  refine ⟨_, text, _, _, hexcerpt, hisLine, Excerpt.below_blankFor _, ?_, rfl,
    Bytes.max_length_eq_iff _⟩
  have hcarets : (max e.span.length 1).toNat = max (e.span.stretch e.source).length 1 := by
    rw [hcovers.length_stretch]
    omega
  simp only [Excerpt.caret, List.find?_cons, beq_self_eq_true, hcarets]

/-- A glyph out of place behind a tab and a character of two bytes. -/
theorem Document.caret_of_parse_tab :
    ∃ src e x text blanks carets, parse {} src = .error e ∧ e.span.line < 2 ^ 63 ∧
      e.excerpt? 0 = some x ∧ NumberedLine.IsLineOf ⟨e.span.line, text⟩ src ∧
      Excerpt.Below (text.glyphs.take (e.span.column - 1).toNat) blanks ∧
      x.caret = text ++ Bytes.utf8 "\n" ++ blanks ++ List.replicate carets '^'.toUInt8 ∧
      x.caret = Bytes.utf8 "\té<q a=b/>\n\t      ^" := by
  have h : parse {} (Bytes.utf8 "<p>\n\té<q a=b/>\r\n</p>") =
      .error ⟨.unexpectedGlyph .beforeValue (.char 'b'), 12, 1, [⟨Bytes.utf8 "p", []⟩],
        Bytes.utf8 "<p>\n\té<q a=b/>\r\n</p>"⟩ := by
    decide +kernel
  obtain ⟨x, text, blanks, carets, hx, hisLine, hbelow, hcaret, -⟩ :=
    caret_of_parse h (by decide +kernel)
  refine ⟨_, _, x, text, blanks, carets, h, by decide +kernel, hx, hisLine, hbelow, hcaret, ?_⟩
  obtain rfl := Option.some.inj (hx.symm.trans (ParseError.excerpt?_eq ..))
  decide +kernel

/-- A closing tag of four glyphs is marked with five carets: its name is a character of two
bytes. -/
theorem Document.caret_of_parse_twoBytes :
    ∃ src e x, parse {} src = .error e ∧ e.excerpt? 0 = some x ∧
      e.span.stretch src = Bytes.utf8 "</é>" ∧ (e.span.stretch src).glyphs.length = 4 ∧
      x.caret = Bytes.utf8 "</é>\n^^^^^" := by
  have h : parse {} (Bytes.utf8 "</é>") =
      .error ⟨.mismatchedClose (Bytes.utf8 "é") none, 0, 5, [], Bytes.utf8 "</é>"⟩ := by
    decide +kernel
  exact ⟨_, _, _, h, ParseError.excerpt?_eq .., by decide +kernel, by decide +kernel,
    by decide +kernel⟩

end LayoutMarkup

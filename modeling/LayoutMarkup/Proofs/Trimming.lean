import LayoutMarkup.Proofs.Values
import Mathlib.Data.List.DropRight

/-!
# Proofs/Trimming — white space at the ends of a text

A text is trimmed glyph by glyph, so it is a stretch of white space, what is left, and white space
again (`exists_of_trimSpace`).  Trimming does not change how the rest is read (`glyphs_trimSpace`),
so nothing more is trimmed the second time (`trimSpace_trimSpace`).  Nothing is trimmed at all from
a text with other glyphs at both ends (`trimSpace_eq_self_iff`).
-/

namespace LayoutMarkup

namespace Bytes

/-! ## The glyphs of parts of a text -/

@[simp] theorem glyphs_nil : glyphs [] = [] := by
  rw [glyphs]
  rfl

/-- The first glyph of a text, and those of the rest. -/
theorem glyphs_of_glyph? {s rest : Bytes} {g : Glyph} (h : glyph? s = some (g, rest)) :
    glyphs s = g :: glyphs rest := by
  rw [glyphs]
  split
  · next hnone => rw [h] at hnone; contradiction
  · next hsome =>
    rw [h] at hsome
    obtain ⟨rfl, rfl⟩ := Prod.mk.inj (Option.some.inj hsome)
    rfl

/-- The rest behind the first glyph has the other glyphs. -/
theorem exists_of_glyphs_cons {s : Bytes} {g : Glyph} {gs : List Glyph} (h : glyphs s = g :: gs) :
    ∃ rest, glyph? s = some (g, rest) ∧ glyphs rest = gs := by
  rcases hs : glyph? s with _ | ⟨g', rest⟩
  · rw [glyph?_eq_none hs, glyphs_nil] at h
    contradiction
  · rw [glyphs_of_glyph? hs] at h
    obtain ⟨rfl, rfl⟩ := List.cons.inj h
    exact ⟨rest, rfl, rfl⟩

/-- Characters that stand at the beginning are the first glyphs. -/
theorem glyphs_ofChars_append (cs : List Char) (s : Bytes) :
    glyphs (ofChars cs ++ s) = cs.map .char ++ glyphs s := by
  induction cs with
  | nil => rfl
  | cons c cs ih =>
    rw [ofChars_cons, List.append_assoc, glyphs_of_glyph? (glyph?_encode_append c _), ih,
      List.map_cons, List.cons_append]

/-- The character that a byte of ASCII is. -/
def ascii (b : UInt8) : Glyph := .char (Char.ofNat b.toNat)

/-- An ASCII byte is a glyph of its own. -/
theorem glyphs_cons {b : UInt8} (h : b < 0x80) (s : Bytes) :
    glyphs (b :: s) = ascii b :: glyphs s :=
  glyphs_of_glyph? (glyph?_ascii h s)

/-- ASCII bytes are glyphs of their own. -/
theorem glyphs_ascii_append {w : Bytes} (hw : ∀ b ∈ w, b < 0x80) (s : Bytes) :
    glyphs (w ++ s) = w.map ascii ++ glyphs s := by
  induction w with
  | nil => rfl
  | cons b w ih =>
    obtain ⟨hb, hw⟩ := List.forall_mem_cons.mp hw
    rw [List.cons_append, glyphs_cons hb, ih hw, List.map_cons, List.cons_append]

/-- A byte of ASCII is not part of a character that begins before it. -/
theorem glyphs_append_cons {b : UInt8} (hb : b < 0x80) (s t : Bytes) :
    glyphs (s ++ b :: t) = glyphs s ++ ascii b :: glyphs t := by
  rcases hs : glyph? s with _ | ⟨g, rest⟩
  · rw [glyph?_eq_none hs, List.nil_append, glyphs_cons hb, glyphs_nil, List.nil_append]
  · have hlt := length_rest_lt hs
    have hread : glyph? (s ++ b :: t) = some (g, rest ++ b :: t) := by
      rcases g with c | x
      · rw [eq_encode_append_of_glyph? hs, List.append_assoc, glyph?_encode_append]
      · obtain rfl := eq_cons_of_glyph? hs
        rcases hlong : glyph? (x :: rest ++ b :: t) with _ | ⟨c | y, rest'⟩
        · exact absurd (glyph?_eq_none hlong) (List.cons_ne_nil _ _)
        · -- The character would end before the byte, and stand in the text without it.
          have heq := eq_encode_append_of_glyph? hlong
          obtain ⟨u, hu, hu'⟩ | ⟨u, hu, -⟩ := List.append_eq_append_iff.mp heq
          · rcases u with _ | ⟨y, u⟩
            · rw [List.append_nil] at hu
              have hread := glyph?_encode_append c []
              rw [hu, List.append_nil, hs] at hread
              cases hread
            · obtain rfl := (List.cons.inj hu').1
              have hmem : b ∈ String.utf8EncodeChar c := by simp [hu]
              rw [eq_ofNat_of_mem_encode hmem hb, encode_byte hb] at hu
              simp at hu
          · rw [hu, glyph?_encode_append] at hs
            cases hs
        · obtain ⟨rfl, rfl⟩ := List.cons.inj (eq_cons_of_glyph? hlong)
          rfl
    rw [glyphs_of_glyph? hread, glyphs_of_glyph? hs, glyphs_append_cons hb rest t,
      List.cons_append]
termination_by s.length

/-- The last glyphs of a text are the glyphs of their own bytes. -/
theorem glyphs_of_append_right {s : Bytes} {gs hs : List Glyph} (h : glyphs s = gs ++ hs) :
    glyphs (hs.flatMap Glyph.bytes) = hs := by
  induction gs generalizing s with
  | nil => rw [List.nil_append] at h; rw [← h, flatMap_glyphs]
  | cons g gs ih =>
    obtain ⟨rest, -, hrest⟩ := exists_of_glyphs_cons h
    exact ih hrest

/-- The first glyphs of a text are the glyphs of their own bytes. -/
theorem glyphs_of_append_left {s : Bytes} {gs hs : List Glyph} (h : glyphs s = gs ++ hs) :
    glyphs (gs.flatMap Glyph.bytes) = gs := by
  induction gs generalizing s with
  | nil => exact glyphs_nil
  | cons g gs ih =>
    obtain ⟨rest, hs, hrest⟩ := exists_of_glyphs_cons h
    rw [List.append_eq] at hrest
    have hread : glyph? (g.bytes ++ gs.flatMap Glyph.bytes) = some (g, gs.flatMap Glyph.bytes) := by
      rcases g with c | b
      · exact glyph?_encode_append c _
      · -- With more text behind it, the byte would still begin a character.
        rcases hchar : glyph? (b :: gs.flatMap Glyph.bytes) with _ | ⟨c | x, r⟩
        · exact absurd (glyph?_eq_none hchar) (List.cons_ne_nil _ _)
        · have hlong := eq_encode_append_of_glyph? hchar
          rw [eq_cons_of_glyph? hs, ← flatMap_glyphs rest, hrest, List.flatMap_append,
            ← List.cons_append, hlong, List.append_assoc, glyph?_encode_append] at hs
          cases hs
        · obtain ⟨rfl, rfl⟩ := List.cons.inj (eq_cons_of_glyph? hchar)
          exact hchar
    rw [List.flatMap_cons, glyphs_of_glyph? hread, ih hrest]

/-! ## Trimming glyphs -/

/-- Glyphs without the white space at both ends. -/
def core (gs : List Glyph) : List Glyph :=
  (gs.dropWhile (·.is isSpace)).rdropWhile (·.is isSpace)

/-- No white space stands at either end. -/
def Tight (gs : List Glyph) : Prop :=
  (∀ g ∈ gs.head?, g.is isSpace = false) ∧ ∀ g ∈ gs.getLast?, g.is isSpace = false

theorem trimSpace_eq (s : Bytes) : s.trimSpace = (core s.glyphs).flatMap Glyph.bytes := rfl

/-- Without white space at the ends, nothing is trimmed. -/
theorem core_eq_self {gs : List Glyph} (h : Tight gs) : core gs = gs := by
  have hfront : gs.dropWhile (·.is isSpace) = gs :=
    List.dropWhile_eq_self_iff.mpr fun hlt => by
      rw [h.1 _ (by rw [List.head?_eq_getElem?, List.getElem?_eq_getElem hlt]; rfl)]
      exact Bool.false_ne_true
  rw [core, hfront, List.rdropWhile_eq_self_iff]
  intro hne
  rw [h.2 _ (List.getLast?_eq_some_getLast hne)]
  exact Bool.false_ne_true

/-- What is left has no white space at its ends. -/
theorem tight_core (gs : List Glyph) : Tight (core gs) := by
  refine ⟨fun g hg => ?_, fun g hg => ?_⟩
  · obtain ⟨t, ht⟩ := List.rdropWhile_prefix (·.is isSpace) (gs.dropWhile (·.is isSpace))
    refine head?_dropWhile (s := gs) g ?_
    rw [← ht, List.head?_append, ← core, hg]
    rfl
  · rw [core, List.rdropWhile, List.getLast?_reverse] at hg
    exact head?_dropWhile g hg

/-- Only white space at the ends is lost. -/
theorem exists_of_core (gs : List Glyph) :
    ∃ xs ys, gs = xs ++ (core gs ++ ys) ∧ (∀ g ∈ xs, g.is isSpace = true) ∧
      ∀ g ∈ ys, g.is isSpace = true := by
  refine ⟨gs.takeWhile (·.is isSpace), (gs.dropWhile (·.is isSpace)).rtakeWhile (·.is isSpace),
    ?_, fun g hg => List.mem_takeWhile_imp hg, fun g hg => List.mem_rtakeWhile_imp hg⟩
  rw [core, List.rdropWhile_append_rtakeWhile, List.takeWhile_append_dropWhile]

/-- **What is left of a text is read as it was read in the text.** -/
theorem glyphs_trimSpace (s : Bytes) : glyphs s.trimSpace = core s.glyphs := by
  obtain ⟨xs, ys, hs, -, -⟩ := exists_of_core s.glyphs
  exact glyphs_of_append_left (glyphs_of_append_right hs)

/-- A text stays as it is exactly if it has no white space at its ends. -/
theorem trimSpace_eq_self_iff {s : Bytes} : s.trimSpace = s ↔ Tight s.glyphs := by
  constructor
  · intro h
    rw [← h, glyphs_trimSpace]
    exact tight_core _
  · intro h
    rw [trimSpace_eq, core_eq_self h, flatMap_glyphs]

@[simp] theorem trimSpace_trimSpace (s : Bytes) : s.trimSpace.trimSpace = s.trimSpace := by
  rw [trimSpace_eq_self_iff, glyphs_trimSpace]
  exact tight_core _

/-- Only white space is trimmed. -/
theorem exists_of_trimSpace (s : Bytes) :
    ∃ xs ys : List Glyph, s = xs.flatMap Glyph.bytes ++ (s.trimSpace ++ ys.flatMap Glyph.bytes) ∧
      (∀ g ∈ xs, g.is isSpace = true) ∧ ∀ g ∈ ys, g.is isSpace = true := by
  obtain ⟨xs, ys, hs, hxs, hys⟩ := exists_of_core s.glyphs
  refine ⟨xs, ys, ?_, hxs, hys⟩
  rw [trimSpace_eq, ← List.flatMap_append, ← List.flatMap_append, ← hs, flatMap_glyphs]

end Bytes

end LayoutMarkup

import LayoutMarkup.Proofs.Lines
import Mathlib.Data.List.Forall2

/-!
# Proofs/Reindentation — the shape of a block of lines

A block that is moved to a depth keeps its shape.  It has the lines it had, each with the same text
behind its indentation (`Reindented`), and those behind the first one are moved by one and the same
distance, so far that the least indented of them stand right at the depth (`Reindents`).  This holds
of every block, whatever its lines begin and end with, and a block that has been moved is not moved
again (`reindents_moveLines`).
-/

namespace LayoutMarkup

namespace Canonical

/-- What becomes of a line behind the first one: a blank line is emptied, and any other is indented
by `pad` at least, with the same text behind its indentation. -/
inductive Reindented (pad : Bytes) : Bytes → Bytes → Prop
  | blank {l : Bytes} (h : isBlankLine l = true) : Reindented pad l []
  | indented {l m : Bytes} (h : isBlankLine l = false) (hpad : pad <+: m)
      (htext : m.dropWhile isIndent = l.dropWhile isIndent) : Reindented pad l m

/-- The lines `ls` have become the lines `ms` with the indentation `pad`. -/
structure Reindents (pad : Bytes) (ls ms : List Bytes) : Prop where
  lines : List.Forall₂ (Reindented pad) ls ms
  /-- Any two lines keep their places relative to each other. -/
  relative : ∀ p ∈ ls.zip ms, ∀ q ∈ ls.zip ms, isBlankLine p.1 = false → isBlankLine q.1 = false →
    (indentation p.2 : Int) - indentation q.2 = indentation p.1 - indentation q.1
  least : (∃ l ∈ ls, isBlankLine l = false) → IsLeast (indentations ms) pad.length

variable {pad l : Bytes} {n : Nat}

theorem dropWhile_isIndent_drop (h : n ≤ indentation l) :
    (l.drop n).dropWhile isIndent = l.dropWhile isIndent := by
  have : (l.take n ++ l.drop n).dropWhile isIndent = (l.drop n).dropWhile isIndent :=
    List.dropWhile_append_of_pos (isIndent_of_mem_take h)
  rwa [List.take_append_drop, eq_comm] at this

theorem reindented_movedLine (hpad : ∀ b ∈ pad, isIndent b = true)
    (hn : isBlankLine l = false → n ≤ indentation l) : Reindented pad l (movedLine pad n l) := by
  by_cases hb : isBlankLine l = true
  · rw [movedLine, if_pos hb]
    exact .blank hb
  · rw [Bool.not_eq_true] at hb
    rw [movedLine_of_not_blank hb]
    refine .indented hb (List.prefix_append _ _) ?_
    rw [List.dropWhile_append_of_pos hpad, dropWhile_isIndent_drop (hn hb)]

theorem mem_zip_map {α β : Type} {f : α → β} {l : List α} {p : α × β} (h : p ∈ l.zip (l.map f)) :
    p.1 ∈ l ∧ p.2 = f p.1 := by
  rw [← List.map_prod_left_eq_zip] at h
  obtain ⟨a, ha, rfl⟩ := List.mem_map.mp h
  exact ⟨ha, rfl⟩

/-- Lines that are moved by their common indentation keep their shape. -/
theorem reindents_movedLine (hpad : ∀ b ∈ pad, isIndent b = true) (ls : List Bytes) :
    Reindents pad ls (ls.map (movedLine pad (commonIndentation ls))) where
  lines := List.forall₂_map_right_iff.mpr <| List.forall₂_same.mpr fun _ hl =>
    reindented_movedLine hpad fun hb => commonIndentation_le hl hb
  relative p hp q hq hpb hqb := by
    obtain ⟨hp, hp'⟩ := mem_zip_map hp
    obtain ⟨hq, hq'⟩ := mem_zip_map hq
    have hple := commonIndentation_le hp hpb
    have hqle := commonIndentation_le hq hqb
    rw [hp', hq', indentation_movedLine hpad hpb hple, indentation_movedLine hpad hqb hqle]
    omega
  least := isLeast_indentations_moved hpad

/-- **A block that is moved keeps its shape, and stays where it is.**  Between the indentation
before it and the line feed behind it, a moved block has the lines it had: the first one as it was,
and the others with the indentation of the depth in place of what they had in common.  Moved once
more to the same depth, it comes out the same. -/
theorem reindents_moveLines {unit : Bytes} (hunit : ∀ b ∈ unit, isIndent b = true) (depth : Nat)
    (s : Bytes) :
    ∃ (out first : Bytes) (rest rest' : List Bytes),
      Line.renderAll unit (moveLines depth s)
        = Line.pad unit depth ++ out ++ Bytes.utf8 "\n" ∧
      s.lines = first :: rest ∧ out.lines = first :: rest' ∧
      Reindents (Line.pad unit depth) rest rest' ∧
      Line.renderAll unit (moveLines depth out) = Line.renderAll unit (moveLines depth s) := by
  have hpad := isIndent_of_mem_pad hunit depth
  have hfeed : Bytes.lf ∉ Line.pad unit depth := fun hmem => absurd (hpad _ hmem) (by decide)
  obtain ⟨first, rest, hs⟩ := List.exists_cons_of_ne_nil (lines_ne_nil s)
  exact ⟨_, first, rest, _, renderAll_moveLines_of_lines unit depth hs, hs,
    lines_intercalate_moved hfeed hs, reindents_movedLine hpad rest,
    congrArg _ (moveLines_intercalate_moved depth hpad hs)⟩

/-- Spaces and tabs are mixed, a line ends with a carriage return, and a blank line holds a form
feed; the last line is empty. -/
theorem reindents_moveLines_mixed :
    Line.renderAll (Bytes.utf8 "\t") (moveLines 2 (Bytes.utf8 "a\n  \t b\r\n \x0c\r\n \t c\n"))
        = Bytes.utf8 "\t\ta\n\t\t b\r\n\n\t\tc\n\n" ∧
      Reindents (Bytes.utf8 "\t\t")
        [Bytes.utf8 "  \t b\r", Bytes.utf8 " \x0c\r", Bytes.utf8 " \t c", []]
        [Bytes.utf8 "\t\t b\r", [], Bytes.utf8 "\t\tc", []] ∧
      Line.renderAll (Bytes.utf8 "\t") (moveLines 2 (Bytes.utf8 "a\n\t\t b\r\n\n\t\tc\n"))
        = Bytes.utf8 "\t\ta\n\t\t b\r\n\n\t\tc\n\n" := by
  have hmoved : Line.renderAll (Bytes.utf8 "\t")
      (moveLines 2 (Bytes.utf8 "a\n  \t b\r\n \x0c\r\n \t c\n"))
        = Line.pad (Bytes.utf8 "\t") 2 ++ Bytes.utf8 "a\n\t\t b\r\n\n\t\tc\n"
          ++ Bytes.utf8 "\n" := by
    decide +kernel
  have hunit : ∀ b ∈ Bytes.utf8 "\t", isIndent b = true := by decide
  obtain ⟨out, first, rest, rest', hout, hs, hlines, hre, hagain⟩ :=
    reindents_moveLines hunit 2 (Bytes.utf8 "a\n  \t b\r\n \x0c\r\n \t c\n")
  obtain rfl := List.append_cancel_left (List.append_cancel_right (hout.symm.trans hmoved))
  obtain ⟨rfl, rfl⟩ := List.cons.inj hs
  obtain ⟨-, rfl⟩ := List.cons.inj hlines
  exact ⟨hmoved, hre, hagain.trans hmoved⟩

end Canonical

end LayoutMarkup

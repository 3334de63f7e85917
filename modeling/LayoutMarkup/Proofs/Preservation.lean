import LayoutMarkup.Formatter
import LayoutMarkup.Proofs.Elements
import LayoutMarkup.Proofs.Parsing

/-!
# Proofs/Preservation — formatting keeps the document

What a formatter prints can be read again, under the same limit of depth, and the gist of the
document that is read is that of the original one, with its attributes in canonical form and order
(`Formatter.gist_of_format`).  If no value in it has another canonical form, it is printed in the
same way again (`exists_reprinted`).
-/

namespace LayoutMarkup

namespace Canonical

/-! ## Documents -/

variable {s : Style} {d : Document}

/-- What is printed of a document depends on what is shown of its nodes. -/
theorem print_eq (s : Style) (d : Document) :
    print s d = if (stackShown false false (shown s.vocabulary 0 d)).isEmpty then [Bytes.lf]
      else Line.renderAll s.indent (stackShown false false (shown s.vocabulary 0 d)) := by
  rw [print, documentLines, stack_eq, shown]
  generalize stackShown false false _ = lines
  rcases lines with _ | ⟨l, ls⟩ <;> rfl

/-- **A printed document can be read as one that conveys the same**, and that is printed in the same
way if its values are settled.  Outside running text its attributes are those that were printed. -/
theorem exists_reprinted (hindent : ∀ b ∈ s.indent, isIndent b = true)
    (hsound : ∀ n ∈ d, n.Sound) (hapart : Apart d) :
    ∃ d', (∀ void, Document.Written void none d' (print s d)) ∧ Conveys s.vocabulary d d' ∧
      ((∀ a ∈ Node.attributesByAll id d', Settled s.vocabulary a) → print s d' = print s d) ∧
      List.Forall₂ (Exact s.vocabulary) (tagsAmong s.vocabulary false d)
        (Node.startTagsAll d') := by
  obtain ⟨ls, hls⟩ := exists_laidAll (v := s.vocabulary) hindent hsound hapart
    (fun n hn ht => exists_laid hindent (hsound n hn) ht 0) false false
  have hagain (cs : List Node) (hcs : Blanks cs)
      (hset : ∀ a ∈ Node.attributesByAll id (glue (ls ++ cs)), Settled s.vocabulary a) :
      print s (glue (ls ++ cs)) = print s d := by
    rw [Node.attributesByAll_glue, Node.attributesByAll_append, List.forall_mem_append] at hset
    have hshown := hls.again hset.1 [] cs (by simp [Blanks]) hcs
    rw [print_eq, print_eq, shown_glue, ← hshown, List.nil_append]
  cases hempty : (stackShown false false (shown s.vocabulary 0 d)).isEmpty with
  | false =>
    refine ⟨glue (ls ++ []), fun void => ?_, ?_, hagain [] (by simp [Blanks]), ?_⟩
    · rw [print_eq, hempty, List.append_nil]
      exact (hls.text void).written
    · rw [List.append_nil]
      exact hls.conveys.glue hapart
    · rw [Node.startTagsAll_glue, List.append_nil]
      exact hls.tags
  | true =>
    refine ⟨glue (ls ++ [.text [Bytes.lf]]), fun void => ?_, ?_, hagain _ blanks_lf, ?_⟩
    · have htext := (hls.text void).append (loose_lf void)
      rw [List.isEmpty_iff.mp hempty] at htext
      rw [print_eq, hempty]
      exact htext.written
    · have hall := hls.conveys.append (.blanks blanks_lf)
      rw [List.append_nil] at hall
      exact hall.glue hapart
    · rw [Node.startTagsAll_glue, Node.startTagsAll_append, Node.startTagsAll_singleton,
        Node.startTags, List.append_nil]
      exact hls.tags

end Canonical

namespace Formatter

variable {f : Formatter} {text out : Bytes}

theorem isIndent_of_mem_style (h : ∀ b ∈ f.indent, Canonical.isIndent b = true) :
    ∀ b ∈ f.style.indent, Canonical.isIndent b = true := by
  unfold style
  dsimp only
  split
  · decide
  · exact h

/-- What is formatted can be read, printed and read again. -/
theorem exists_of_format (hindent : ∀ b ∈ f.indent, Canonical.isIndent b = true)
    (h : f.format text = .ok out) :
    ∃ d d', Document.parse f.options text = .ok d ∧ out = Canonical.print f.style d ∧
      Document.parse f.options out = .ok d' ∧ Canonical.Conveys f.vocabulary d d' ∧
      ((∀ a ∈ Node.attributesByAll id d', Canonical.Settled f.vocabulary a) →
        Canonical.print f.style d' = out) ∧
      List.Forall₂ (Canonical.Exact f.vocabulary) (Canonical.tagsAmong f.vocabulary false d)
        (Node.startTagsAll d') := by
  rw [format] at h
  obtain ⟨d, hparse, rfl⟩ := Except.map_eq_ok_iff.mp h
  obtain ⟨hwritten, hroom⟩ := Document.written_of_parse hparse
  obtain ⟨hsound, hapart⟩ := hwritten.sound
  obtain ⟨d', hd', hconveys, hagain, htags⟩ :=
    Canonical.exists_reprinted (isIndent_of_mem_style hindent) hsound hapart
  exact ⟨d, d', hparse, rfl, Document.parse_of_written (hd' _) (hconveys.nesting.trans hroom),
    hconveys, hagain, htags⟩

/-- **Formatting keeps the document.**  What comes out can be read again, and apart from blank texts
it is the same tree: the same elements with the same nesting, the same comments, texts with the same
words, and the attributes in the order of their keys, each with the words of its canonical form. -/
theorem gist_of_format (hindent : ∀ b ∈ f.indent, Canonical.isIndent b = true)
    (h : f.format text = .ok out) :
    ∃ d d', Document.parse f.options text = .ok d ∧ Document.parse f.options out = .ok d' ∧
      Node.gistAll Canonical.plainWords d'
        = Node.gistAll (Canonical.canonicalWords f.vocabulary) d ∧
      ∀ as, Attribute.Ordered as (Canonical.sortAttributes as) := by
  obtain ⟨d, d', hparse, -, hparse', hconveys, -⟩ := exists_of_format hindent h
  exact ⟨d, d', hparse, hparse', hconveys.gist, Canonical.ordered_sortAttributes⟩

/-- The text before and behind an element that stays open becomes part of one run. -/
theorem gist_of_format_reordered :
    ({} : Formatter).format (Bytes.utf8 ("<Row width = \"2*(a+ b)\" alpha=\"1\"><!-- x --> hi  " ++
        "<b\n>there\n  now</b> <i> </i><br> you </Row>"))
      = .ok (Bytes.utf8 ("<Row\n    alpha=\"1\"\n    width=\"2 * (a + b)\">\n\n    <!-- x -->\n" ++
        "    hi  <b>there\n    now</b> <i/><br> you </br>\n</Row>\n")) ∧
    ∃ d d', Document.parse ({} : Formatter).options
        (Bytes.utf8 ("<Row width = \"2*(a+ b)\" alpha=\"1\"><!-- x --> hi  " ++
          "<b\n>there\n  now</b> <i> </i><br> you </Row>")) = .ok d ∧
      Document.parse ({} : Formatter).options
        (Bytes.utf8 ("<Row\n    alpha=\"1\"\n    width=\"2 * (a + b)\">\n\n    <!-- x -->\n" ++
          "    hi  <b>there\n    now</b> <i/><br> you </br>\n</Row>\n")) = .ok d' ∧
      Node.gistAll Canonical.plainWords d' = Node.gistAll (Canonical.canonicalWords .standard) d ∧
      ∀ as, Attribute.Ordered as (Canonical.sortAttributes as) := by
  refine ⟨?h, gist_of_format (by decide) ?h⟩
  decide +kernel

end Formatter

end LayoutMarkup

import LayoutMarkup.Proofs.Preservation
import LayoutMarkup.Proofs.Trimming

/-!
# Proofs/Classification — formatting keeps what a document is

A text is a layout exactly if it is a document whose root is no element of HTML
(`Formatter.isLayout_iff`): that white space alone is told apart first makes no difference, since a
text with a root in it has an opening mark.  The root depends on the gist (`Gist.root?_gistAll`),
which formatting keeps, so a text and what it is formatted to are both layouts or neither is
(`Formatter.isLayout_of_format`).
-/

namespace LayoutMarkup

/-! ## The root of a gist -/

/-- The name of the root: the first element, if only comments stand before it. -/
def Gist.root? : List Gist → Option Bytes
  | [] => none
  | .element name _ _ :: _ => some name
  | .comment _ :: gists => root? gists
  | .text _ :: _ => none

theorem Gist.root?_gistAll (f : List Attribute → List (Bytes × List Bytes)) :
    ∀ d : Document, Gist.root? (Node.gistAll f d) = d.root?
  | [] => rfl
  | .element _ _ _ _ :: _ => rfl
  | .comment _ :: nodes => Gist.root?_gistAll f nodes
  | .text raw :: nodes => by
    have ih := Gist.root?_gistAll f nodes
    rw [Node.gistAll, Node.isBlank, Document.root?]
    split
    · exact ih
    · rfl

/-! ## A text with a root is not white space alone -/

/-- There is an opening mark in a document with a root. -/
theorem Document.Written.mem_of_root? {void : NameSet} {closer : Option Bytes} {d : Document}
    {s name : Bytes} (h : Written void closer d s) (hroot : d.root? = some name) :
    '<'.toUInt8 ∈ s := by
  have htag {t : StartTag} {s : Bytes} (htag : t.Written s) : '<'.toUInt8 ∈ s := by
    obtain ⟨-, -, -, -⟩ := htag
    simp [utf8_open]
  induction h with
  | nil => cases hroot
  | text _ _ _ _ ih =>
    rw [Document.root?] at hroot
    split at hroot
    · exact List.mem_append_right _ (ih hroot)
    · cases hroot
  | comment _ _ ih => exact List.mem_append_right _ (ih hroot)
  | selfClosing hstart | closed hstart | unclosed hstart =>
    simp only [List.mem_append, htag hstart, true_or]

/-- A text with a byte of ASCII in it that is not white space is not trimmed to nothing. -/
theorem Bytes.trimSpace_ne_nil {s : Bytes} {b : UInt8} (hb : b < 0x80)
    (hspace : (ascii b).is isSpace = false) (h : b ∈ s) : s.trimSpace ≠ [] := by
  intro hnil
  obtain ⟨u, t, rfl⟩ := List.append_of_mem h
  obtain ⟨xs, ys, hglyphs, hxs, hys⟩ := exists_of_core (glyphs (u ++ b :: t))
  have hcore : core (glyphs (u ++ b :: t)) = [] := by
    rw [← glyphs_trimSpace, hnil, glyphs_nil]
  have hmem : ascii b ∈ glyphs (u ++ b :: t) := by
    rw [glyphs_append_cons hb]
    simp
  rw [hglyphs, hcore, List.nil_append] at hmem
  have htrue : (ascii b).is isSpace = true := (List.mem_append.mp hmem).elim (hxs _) (hys _)
  rw [hspace] at htrue
  cases htrue

namespace Formatter

variable {f : Formatter} {text out : Bytes}

/-- **A text is a layout exactly if it is a document whose root is no element of HTML.** -/
theorem isLayout_iff : f.isLayout text = true ↔
    ∃ d name, Document.parse f.options text = .ok d ∧ d.root? = some name ∧
      f.vocabulary.html.has name = false := by
  rw [isLayout, classify]
  constructor
  · intro h
    split at h
    · cases h
    · split at h
      · cases h
      · next d hparse =>
        split at h
        · cases h
        · next name hroot =>
          split at h
          · cases h
          · next hhtml => exact ⟨d, name, hparse, hroot, Bool.eq_false_of_not_eq_true hhtml⟩
  · rintro ⟨d, name, hparse, hroot, hhtml⟩
    have hmark := (Document.written_of_parse hparse).1.mem_of_root? hroot
    have hne := Bytes.trimSpace_ne_nil (by decide) (by decide) hmark
    rw [if_neg (by simpa using hne), hparse]
    simp only [hroot, hhtml]
    rfl

/-- **Formatting keeps what a document is**: a text and what it is formatted to are both layouts, or
neither is.  They are if the root is no element of HTML. -/
theorem isLayout_of_format (hindent : ∀ b ∈ f.indent, Canonical.isIndent b = true)
    (h : f.format text = .ok out) :
    f.isLayout out = f.isLayout text ∧ (f.isLayout text = true ↔
      ∃ d name, Document.parse f.options text = .ok d ∧ d.root? = some name ∧
        f.vocabulary.html.has name = false) := by
  obtain ⟨d, d', hparse, -, hparse', hconveys, -⟩ := exists_of_format hindent h
  have hroot : d'.root? = d.root? := by
    rw [← Gist.root?_gistAll, hconveys.gist, Gist.root?_gistAll]
  refine ⟨?_, isLayout_iff⟩
  rw [Bool.eq_iff_iff, isLayout_iff, isLayout_iff, hparse, hparse']
  simp only [Except.ok.injEq, exists_and_left, exists_eq_left', hroot]

/-- The root is part of a run, since text flows around it. -/
theorem isLayout_of_format_run :
    ∃ f : Formatter, f.indent = Bytes.utf8 "\t" ∧
      f.format (Bytes.utf8 "<!--x--> \n<Tag b=\"1\" a=\"2\"\n>hi</Tag>  there")
        = .ok (Bytes.utf8 "<!--x-->\n<Tag a=\"2\" b=\"1\">hi</Tag>  there\n") ∧
      f.isLayout (Bytes.utf8 "<!--x--> \n<Tag b=\"1\" a=\"2\"\n>hi</Tag>  there") = true ∧
      f.isLayout (Bytes.utf8 "<!--x-->\n<Tag a=\"2\" b=\"1\">hi</Tag>  there\n") = true := by
  refine ⟨{ vocabulary := { rawText := Vocabulary.setOf ["Tag"] }, indent := Bytes.utf8 "\t" }, rfl,
    ?hformat, ?hlayout, (isLayout_of_format (by decide) ?hformat).1.trans ?hlayout⟩ <;>
    decide +kernel

end Formatter

end LayoutMarkup

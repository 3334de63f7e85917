import LayoutMarkup.Proofs.Preservation

/-!
# Proofs/Attributes — what formatting does to attributes

The start tags of what comes out are those of the original document, in the same order, each with
its attributes sorted by their keys (`Formatter.attributes_of_format`).  A value comes out in its
canonical form, byte by byte, as long as this form is a single line or the tag stands outside
running text.  The lines of a longer one in running text are moved with it
(`Formatter.attributes_of_format_moved`).
-/

namespace LayoutMarkup

/-- Lists that correspond as a whole correspond part by part, if the parts have the same lengths. -/
theorem forall₂_of_flatMap {α β γ δ : Type} {P : α → β → Prop} {R : γ → δ → Prop}
    {f : α → List γ} {g : β → List δ} {as : List α} {bs : List β}
    (hparts : List.Forall₂ (fun a b => P a b ∧ (f a).length = (g b).length) as bs)
    (h : List.Forall₂ R (as.flatMap f) (bs.flatMap g)) :
    List.Forall₂ (fun a b => P a b ∧ List.Forall₂ R (f a) (g b)) as bs := by
  induction hparts with
  | nil => exact .nil
  | @cons a b as bs hab _ ih =>
    obtain ⟨hP, hlength⟩ := hab
    rw [List.flatMap_cons, List.flatMap_cons] at h
    have hfirst := List.forall₂_take (f a).length h
    have hrest := List.forall₂_drop (f a).length h
    rw [List.take_left, hlength, List.take_left] at hfirst
    rw [List.drop_left, hlength, List.drop_left] at hrest
    exact .cons ⟨hP, hfirst⟩ (ih hrest)

/-! ## Attributes that are kept -/

namespace Canonical

/-- The attribute comes out as the second one: with the same key, and with its canonical value.  If
this value has several lines, those behind the first may have been moved. -/
structure Kept (v : Vocabulary) (a a' : Attribute) : Prop where
  carried : Carried v a a'
  line : Bytes.lf ∉ value v a → a'.value = value v a

theorem Carried.kept {v : Vocabulary} {a a' : Attribute} (h : Carried v a a') : Kept v a a' where
  carried := h
  line hline := by
    obtain ⟨-, hvalue | ⟨pad, k, -, -, hvalue⟩⟩ := h
    · exact hvalue
    · rw [hvalue, shift_line hline]

/-- A value that is neither in braces, nor a colour, nor an expression is canonical as it is. -/
theorem value_eq_self {v : Vocabulary} {a : Attribute}
    (hbraced : bracedBody? a.value.trimSpace = none)
    (hcolour : isColour a.key = false) (hexpr : v.expression.has a.key = false) :
    value v a = a.value := by
  simp only [value, hbraced, hcolour, hexpr, Bool.or_self, Bool.false_eq_true, if_false]

/-- **The start tags keep their names and their attributes**, which come in the order of their
keys. -/
theorem Conveys.startTags {v : Vocabulary} {ns ms : List Node} (h : Conveys v ns ms) :
    List.Forall₂ (fun t t' => t'.name = t.name ∧
        List.Forall₂ (Kept v) (sortAttributes t.attributes) t'.attributes)
      (Node.startTagsAll ns) (Node.startTagsAll ms) := by
  have hcarried := h.carried
  rw [Node.attributesByAll_eq_startTagsAll, Node.attributesByAll_eq_startTagsAll] at hcarried
  exact (forall₂_of_flatMap h.paired hcarried).imp
    fun t t' heq => ⟨heq.1, heq.2.imp fun _ _ => Carried.kept⟩

end Canonical

namespace Formatter

variable {f : Formatter} {text out : Bytes}

/-- **Formatting keeps the attributes of every element.**  What comes out can be read again, and has
the same start tags in the same order.  The attributes of each come in the order of their keys, and
their values in canonical form, byte by byte unless this form has several lines and the tag stands
in running text; a value that is neither in braces, nor a colour, nor an expression is in canonical
form. -/
theorem attributes_of_format (hindent : ∀ b ∈ f.indent, Canonical.isIndent b = true)
    (h : f.format text = .ok out) :
    ∃ d d', Document.parse f.options text = .ok d ∧ Document.parse f.options out = .ok d' ∧
      List.Forall₂ (fun t t' => t'.name = t.name ∧ List.Forall₂ (Canonical.Kept f.vocabulary)
          (Canonical.sortAttributes t.attributes) t'.attributes)
        (Node.startTagsAll d) (Node.startTagsAll d') ∧
      (Canonical.tagsAmong f.vocabulary false d).map Prod.fst = Node.startTagsAll d ∧
      List.Forall₂ (fun t t' => t.2 = false →
          t'.attributes = Canonical.tidyAttributes f.vocabulary t.1.attributes)
        (Canonical.tagsAmong f.vocabulary false d) (Node.startTagsAll d') ∧
      (∀ as, Attribute.Ordered as (Canonical.sortAttributes as)) ∧
      ∀ a : Attribute, Canonical.bracedBody? a.value.trimSpace = none →
        Canonical.isColour a.key = false → f.vocabulary.expression.has a.key = false →
        Canonical.value f.vocabulary a = a.value := by
  obtain ⟨d, d', hparse, -, hparse', hconveys, -, htags⟩ := exists_of_format hindent h
  exact ⟨d, d', hparse, hparse', hconveys.startTags, Canonical.map_fst_tagsAmong false d, htags,
    Canonical.ordered_sortAttributes, fun _ => Canonical.value_eq_self⟩

/-- The value of several lines stays as it is, since no text runs beside the element. -/
theorem attributes_of_format_block :
    ({} : Formatter).format
        (Bytes.utf8 "<Row title=\"a\n  b\" alpha=\"1\"><Label width=\"2*a\"/></Row>")
      = .ok (Bytes.utf8 ("<Row\n    alpha=\"1\"\n    title=\"a\n  b\">\n\n" ++
        "    <Label width=\"2 * a\"/>\n</Row>\n")) ∧
    (Document.parse ({} : Formatter).options
        (Bytes.utf8 "<Row title=\"a\n  b\" alpha=\"1\"><Label width=\"2*a\"/></Row>")).map
        (fun d => (Canonical.tagsAmong .standard false d).map Prod.snd) = .ok [false, false] ∧
    ∃ d d', Document.parse ({} : Formatter).options
        (Bytes.utf8 "<Row title=\"a\n  b\" alpha=\"1\"><Label width=\"2*a\"/></Row>") = .ok d ∧
      Document.parse ({} : Formatter).options
        (Bytes.utf8 ("<Row\n    alpha=\"1\"\n    title=\"a\n  b\">\n\n" ++
          "    <Label width=\"2 * a\"/>\n</Row>\n")) = .ok d' ∧
      List.Forall₂ (fun t t' => t'.name = t.name ∧ List.Forall₂ (Canonical.Kept .standard)
          (Canonical.sortAttributes t.attributes) t'.attributes)
        (Node.startTagsAll d) (Node.startTagsAll d') ∧
      List.Forall₂ (fun t t' => t.2 = false →
          t'.attributes = Canonical.tidyAttributes .standard t.1.attributes)
        (Canonical.tagsAmong .standard false d) (Node.startTagsAll d') := by
  have hformat : ({} : Formatter).format
        (Bytes.utf8 "<Row title=\"a\n  b\" alpha=\"1\"><Label width=\"2*a\"/></Row>")
      = .ok (Bytes.utf8 ("<Row\n    alpha=\"1\"\n    title=\"a\n  b\">\n\n" ++
        "    <Label width=\"2 * a\"/>\n</Row>\n")) := by
    decide +kernel
  obtain ⟨d, d', hparse, hparse', hkept, -, htags, -⟩ := attributes_of_format (by decide) hformat
  exact ⟨hformat, by decide +kernel, d, d', hparse, hparse', hkept, htags⟩

/-- A value in running text loses the indentation of its second line, although it is in canonical
form. -/
theorem attributes_of_format_moved :
    ({} : Formatter).format (Bytes.utf8 "hi <b title=\"a\n  b\">x</b>")
      = .ok (Bytes.utf8 "hi <b title=\"a\nb\">x</b>\n") ∧
    (Document.parse ({} : Formatter).options
        (Bytes.utf8 "hi <b title=\"a\n  b\">x</b>")).map
        (fun d => (Canonical.tagsAmong .standard false d).map Prod.snd) = .ok [true] ∧
    (Document.parse ({} : Formatter).options
        (Bytes.utf8 "hi <b title=\"a\n  b\">x</b>")).map Node.startTagsAll
      = .ok [⟨Bytes.utf8 "b", [⟨Bytes.utf8 "title", Bytes.utf8 "a\n  b"⟩]⟩] ∧
    (Document.parse ({} : Formatter).options
        (Bytes.utf8 "hi <b title=\"a\nb\">x</b>\n")).map Node.startTagsAll
      = .ok [⟨Bytes.utf8 "b", [⟨Bytes.utf8 "title", Bytes.utf8 "a\nb"⟩]⟩] ∧
    Canonical.value .standard ⟨Bytes.utf8 "title", Bytes.utf8 "a\n  b"⟩
      = Bytes.utf8 "a\n  b" := by
  decide +kernel

end Formatter

end LayoutMarkup

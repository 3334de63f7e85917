import LayoutMarkup.Proofs.Attributes
import LayoutMarkup.Proofs.Settling

/-!
# Proofs/Stability — formatting what has been formatted

What comes out of a formatter can be formatted again, and stays as it is exactly if each value in it
is its own canonical form (`Formatter.format_of_format`).  This is so unless a form feed stands on a
blank line of a value: there it keeps the value from being read as an expression, and it is gone
when the lines of the value have been moved (`Formatter.format_of_format_formFeed`).
-/

namespace LayoutMarkup

namespace Canonical

variable {v : Vocabulary} {ns ms : List Node} {a : Attribute}

theorem mem_attributesByAll_sort :
    a ∈ Node.attributesByAll sortAttributes ns ↔ a ∈ Node.attributesByAll id ns := by
  rw [Node.attributesByAll_eq_startTagsAll, Node.attributesByAll_eq_startTagsAll, List.mem_flatMap,
    List.mem_flatMap]
  exact exists_congr fun t => and_congr_right fun _ => (perm_sortAttributes t.attributes).mem_iff

theorem Conveys.settled (h : Conveys v ns ms)
    (hclear : ∀ a ∈ Node.attributesByAll id ns, Clear a.value) :
    ∀ a ∈ Node.attributesByAll id ms, Settled v a :=
  forall_mem_of_forall₂ h.carried (fun _ _ => settled_of_carried) fun a ha =>
    hclear a (mem_attributesByAll_sort.mp ha)

/-- What is printed as it is has settled values. -/
theorem Conveys.settled_self (h : Conveys v ns ns) :
    ∀ a ∈ Node.attributesByAll id ns, Settled v a := by
  have hcarried := h.carried
  rw [h.sorted, List.forall₂_same] at hcarried
  exact fun a ha => settled_of_carried_self (hcarried a ha)

end Canonical

namespace Formatter

variable {f : Formatter} {text out : Bytes}

/-- **What has been formatted can be formatted again**, and stays as it is exactly if each value in
it is its own canonical form.  It stays as it is if no blank line of a value in the original text
holds a form feed. -/
theorem format_of_format (hindent : ∀ b ∈ f.indent, Canonical.isIndent b = true)
    (h : f.format text = .ok out) :
    ∃ d d', Document.parse f.options text = .ok d ∧ Document.parse f.options out = .ok d' ∧
      f.format out = .ok (Canonical.print f.style d') ∧
      (f.format out = .ok out ↔
        ∀ a ∈ Node.attributesByAll id d', Canonical.Settled f.vocabulary a) ∧
      ((∀ a ∈ Node.attributesByAll id d, Canonical.Clear a.value) → f.format out = .ok out) := by
  obtain ⟨d, d', hparse, rfl, hparse', hconveys, hagain, -⟩ := exists_of_format hindent h
  have hformat : f.format (Canonical.print f.style d) = .ok (Canonical.print f.style d') := by
    rw [format, hparse']
    rfl
  have hstays (hset : ∀ a ∈ Node.attributesByAll id d', Canonical.Settled f.vocabulary a) :
      f.format (Canonical.print f.style d) = .ok (Canonical.print f.style d) :=
    hformat.trans (congrArg Except.ok (hagain hset))
  refine ⟨d, d', hparse, hparse', hformat, ⟨fun hstays => ?_, hstays⟩, fun hclear =>
    hstays (hconveys.settled hclear)⟩
  -- The document that is printed and the one that is read from it are the same.
  obtain ⟨e, e', hparse₁, -, hparse₂, hself, -⟩ := exists_of_format hindent hstays
  obtain rfl := Except.ok.inj (hparse₁.symm.trans hparse')
  obtain rfl := Except.ok.inj (hparse₂.symm.trans hparse')
  exact hself.settled_self

/-- The second line of a value has been moved; the value still cannot be read as an expression. -/
theorem format_of_format_moved :
    ({} : Formatter).format (Bytes.utf8 "hi <b width=\"a\n \n  b\">x</b>")
      = .ok (Bytes.utf8 "hi <b width=\"a\n\nb\">x</b>\n") ∧
    ({} : Formatter).format (Bytes.utf8 "hi <b width=\"a\n\nb\">x</b>\n")
      = .ok (Bytes.utf8 "hi <b width=\"a\n\nb\">x</b>\n") := by
  have hformat : ({} : Formatter).format (Bytes.utf8 "hi <b width=\"a\n \n  b\">x</b>")
      = .ok (Bytes.utf8 "hi <b width=\"a\n\nb\">x</b>\n") := by decide +kernel
  have hvalues : (Document.parse ({} : Formatter).options
        (Bytes.utf8 "hi <b width=\"a\n \n  b\">x</b>")).map (Node.attributesByAll id)
      = .ok [⟨Bytes.utf8 "width", Bytes.utf8 "a\n \n  b"⟩] := by decide +kernel
  obtain ⟨d, d', hparse, -, -, -, hstays⟩ := format_of_format (by decide) hformat
  rw [hparse] at hvalues
  refine ⟨hformat, hstays ?_⟩
  rw [Except.ok.inj hvalues]
  decide

/-- A form feed keeps the value from being read as an expression the first time, and is gone the
second time. -/
theorem format_of_format_formFeed :
    ({} : Formatter).format (Bytes.utf8 "hi <b width=\"a\n\x0c\n+b\">x</b>")
      = .ok (Bytes.utf8 "hi <b width=\"a\n\n+b\">x</b>\n") ∧
    ({} : Formatter).format (Bytes.utf8 "hi <b width=\"a\n\n+b\">x</b>\n")
      = .ok (Bytes.utf8 "hi <b width=\"a + b\">x</b>\n") ∧
    Bytes.utf8 "hi <b width=\"a + b\">x</b>\n"
      ≠ Bytes.utf8 "hi <b width=\"a\n\n+b\">x</b>\n" := by
  decide +kernel

end Formatter

end LayoutMarkup

import LayoutMarkup.Canonical.Value
import LayoutMarkup.Proofs.Agreement
import LayoutMarkup.Proofs.Calls

/-!
# Proofs/Values — attribute values in canonical form
-/

namespace LayoutMarkup

namespace Bytes

/-! ## Trimming -/

/-- A text is what its glyphs were read from. -/
theorem flatMap_glyphs (s : Bytes) : (glyphs s).flatMap Glyph.bytes = s := by
  rw [glyphs]
  split
  · next h => rw [glyph?_eq_none h]; rfl
  · next g rest h =>
    have hlt := length_rest_lt h
    rw [List.flatMap_cons, flatMap_glyphs rest, ← eq_bytes_append_of_glyph? h]
termination_by s.length

/-- Trimming brings no byte in. -/
theorem mem_of_mem_trimSpace {s : Bytes} {b : UInt8} (h : b ∈ s.trimSpace) : b ∈ s := by
  rw [trimSpace, trimChars] at h
  obtain ⟨g, hg, hb⟩ := List.mem_flatMap.mp h
  have hg : g ∈ glyphs s := by
    have := (List.dropWhile_suffix _).mem (List.mem_reverse.mp hg)
    exact (List.dropWhile_suffix _).mem (List.mem_reverse.mp this)
  rw [← flatMap_glyphs s]
  exact List.mem_flatMap.mpr ⟨g, hg, hb⟩

end Bytes

/-! ## Which bytes a canonical form has -/

/-- The ASCII bytes of an identifier are parts of one. -/
theorem Bytes.IsIdentifier.part_of_mem {s : Bytes} (h : s.IsIdentifier) {b : UInt8} (hb : b ∈ s)
    (hlt : b < 0x80) : isIdentifierPart (Char.ofNat b.toNat) = true :=
  Bytes.IsWord.part_of_mem isIdentifierPart_of_isIdentifierStart h hb hlt

namespace Expr

/-- A byte that an expression in canonical form can contain: part of a number or a name if it is
in ASCII, or one of the marks between them. -/
def IsPrinted (b : UInt8) : Prop :=
  b < 0x80 → isIdentifierPart (Char.ofNat b.toNat) = true ∨ b ∈ Bytes.utf8 " ()+-*/"

theorem isPrinted_of_mem {b : UInt8} (h : b ∈ Bytes.utf8 " ()+-*/") : IsPrinted b := fun _ => .inr h

/-- Parentheses are among what is printed. -/
theorem isPrinted_parenthesized {s : Bytes} (h : ∀ b ∈ s, IsPrinted b) :
    ∀ b ∈ s.parenthesized, IsPrinted b := by
  have hopen : ∀ b ∈ Bytes.utf8 "(", IsPrinted b := fun b hb =>
    isPrinted_of_mem ((by decide : ∀ b ∈ Bytes.utf8 "(", b ∈ Bytes.utf8 " ()+-*/") b hb)
  have hclose : ∀ b ∈ Bytes.utf8 ")", IsPrinted b := fun b hb =>
    isPrinted_of_mem ((by decide : ∀ b ∈ Bytes.utf8 ")", b ∈ Bytes.utf8 " ()+-*/") b hb)
  exact List.forall_mem_append.mpr ⟨List.forall_mem_append.mpr ⟨hopen, h⟩, hclose⟩

theorem isPrinted_grouped {s : Bytes} (grouped : Bool) (h : ∀ b ∈ s, IsPrinted b) :
    ∀ b ∈ if grouped then s.parenthesized else s, IsPrinted b := by
  cases grouped with
  | true => exact isPrinted_parenthesized h
  | false => exact h

/-- **What is printed of an expression is identifiers, numbers, marks and spaces.** -/
theorem isPrinted_of_mem_print {e : Expr} (he : e.Arithmetic) : ∀ b ∈ e.print, IsPrinted b := by
  induction e with
  | number t =>
    intro b hb _
    exact .inl ((by decide : ∀ b ∈ Lexeme.numberBytes,
      isIdentifierPart (Char.ofNat b.toNat) = true) b (he.mem_numberBytes b hb))
  | name t =>
    obtain _ | _ | ⟨hname⟩ := he
    exact fun b hb hlt => .inl (hname.part_of_mem hb hlt)
  | call c => cases he
  | neg e ih =>
    have hsign : ∀ b ∈ Bytes.utf8 "-", IsPrinted b := fun b hb =>
      isPrinted_of_mem ((by decide : ∀ b ∈ Bytes.utf8 "-", b ∈ Bytes.utf8 " ()+-*/") b hb)
    exact List.forall_mem_append.mpr ⟨hsign, isPrinted_grouped _ (ih he)⟩
  | binary op l r ihl ihr =>
    obtain ⟨hop, hl, hr⟩ := he
    have hspace : ∀ b ∈ Bytes.utf8 " ", IsPrinted b := fun b hb =>
      isPrinted_of_mem ((by decide : ∀ b ∈ Bytes.utf8 " ", b ∈ Bytes.utf8 " ()+-*/") b hb)
    have hsymbol : ∀ b ∈ op.symbol, IsPrinted b := by
      intro b hb
      refine isPrinted_of_mem ?_
      cases hop with
      | operator hop =>
        exact (by decide : ∀ l ∈ Formula.marks, ∀ b ∈ l.text, b ∈ Bytes.utf8 " ()+-*/") _
          (Formula.mem_marks hop) b hb
    simp only [print, List.forall_mem_append]
    exact ⟨⟨⟨⟨isPrinted_grouped _ (ihl hl), hspace⟩, hsymbol⟩, hspace⟩,
      isPrinted_grouped _ (ihr hr)⟩

/-- Other ASCII characters do not occur in what is printed. -/
theorem not_mem_print {e : Expr} (he : e.Arithmetic) {b : UInt8} (hlt : b < 0x80)
    (hpart : isIdentifierPart (Char.ofNat b.toNat) = false) (hmark : b ∉ Bytes.utf8 " ()+-*/") :
    b ∉ e.print := by
  intro hb
  rcases isPrinted_of_mem_print he b hb hlt with h | h
  · rw [hpart] at h
    cases h
  · exact hmark h

end Expr

namespace Canonical

/-- What is read as an expression. -/
theorem canonicalExpr?_eq_some {src out : Bytes} (h : canonicalExpr? src = some out) :
    ∃ e, Expr.parse src = .ok e ∧ e.Arithmetic ∧ out = e.print := by
  rw [canonicalExpr?] at h
  cases hf : Expr.format src with
  | error err =>
    rw [hf] at h
    cases h
  | ok out' =>
    rw [hf] at h
    simp only at h
    split at h
    · cases h
      obtain ⟨e, hp, rfl⟩ := Except.map_eq_ok_iff.mp hf
      exact ⟨e, hp, Expr.arithmetic_of_parse hp, rfl⟩
    · cases h

/-- What is read as a call. -/
theorem canonicalColour?_eq_some {src out : Bytes} (h : canonicalColour? src = some out) :
    ∃ c, Call.parse src = .ok c ∧ out = c.print := by
  rw [canonicalColour?, Call.format] at h
  cases hp : Call.parse src with
  | error err =>
    rw [hp] at h
    cases h
  | ok c =>
    rw [hp] at h
    exact ⟨c, rfl, (Option.some.inj h).symm⟩

theorem mem_intercalate {sep b : UInt8} {raw : Bytes} {raws : List Bytes} (hraw : raw ∈ raws)
    (hb : b ∈ raw) : b ∈ [sep].intercalate raws := by
  induction raws with
  | nil => cases hraw
  | cons r raws ih =>
    cases raws with
    | nil =>
      obtain rfl := List.mem_singleton.mp hraw
      rwa [List.intercalate_singleton]
    | cons r' raws =>
      rw [List.intercalate_cons_cons, List.append_assoc, List.mem_append]
      rcases List.mem_cons.mp hraw with rfl | hraw
      · exact .inl hb
      · exact .inr (List.mem_cons_of_mem _ (ih hraw))

/-- A byte of the whole is one of a part or of what stands between them. -/
theorem mem_of_mem_intercalate {sep : Bytes} {ss : List Bytes} {b : UInt8}
    (h : b ∈ sep.intercalate ss) : b ∈ sep ∨ ∃ s ∈ ss, b ∈ s := by
  induction ss with
  | nil => cases h
  | cons s ss ih =>
    cases ss with
    | nil =>
      rw [List.intercalate_singleton] at h
      exact .inr ⟨s, List.mem_cons_self, h⟩
    | cons s' ss =>
      rw [List.intercalate_cons_cons, List.mem_append, List.mem_append] at h
      rcases h with (h | h) | h
      · exact .inr ⟨s, List.mem_cons_self, h⟩
      · exact .inl h
      · exact (ih h).imp_right fun ⟨t, ht, hb⟩ => ⟨t, List.mem_cons_of_mem _ ht, hb⟩

/-- The arguments of a call are parts of its text. -/
theorem mem_of_mem_args {src : Bytes} {c : Call} (h : Call.parse src = .ok c) :
    ∀ arg ∈ c.args, ∀ b ∈ arg, b ∈ src := by
  intro arg harg b hb
  obtain ⟨raws, hwritten, -, hargs⟩ := Call.written_of_parse h
  rw [hargs] at harg
  obtain ⟨raw, hraw, rfl⟩ := List.mem_map.mp harg
  have hmem : b ∈ [Call.comma].intercalate raws :=
    mem_intercalate hraw (Bytes.mem_of_mem_trimSpace hb)
  cases hwritten
  simp [Call.arguments, hmem]

/-- The canonical form has no quote in it, if the value has none. -/
theorem quote_not_mem_canonical {key src out : Bytes} (hsrc : '"'.toUInt8 ∉ src)
    (h : canonical? key src = some out) : '"'.toUInt8 ∉ out := by
  rw [canonical?] at h
  split at h
  · obtain ⟨c, hc, rfl⟩ := canonicalColour?_eq_some h
    obtain ⟨raws, hwritten, -, -⟩ := Call.written_of_parse hc
    have hname : '"'.toUInt8 ∉ c.name := fun hmem => by
      cases hwritten with
      | intro _ hname => exact absurd (hname.part_of_mem hmem (by decide)) (by decide)
    intro hmem
    simp only [Call.print, Bytes.parenthesized, List.mem_append] at hmem
    rcases hmem with hmem | (hmem | hmem) | hmem
    · exact hname hmem
    · exact absurd hmem (by decide)
    · rcases mem_of_mem_intercalate hmem with hmem | ⟨arg, harg, hb⟩
      · exact absurd hmem (by decide)
      · exact hsrc (mem_of_mem_args hc arg harg _ hb)
    · exact absurd hmem (by decide)
  · obtain ⟨e, -, he, rfl⟩ := canonicalExpr?_eq_some h
    exact Expr.not_mem_print he (by decide) (by decide) (by decide)

/-- The canonical form of a value, if it is read as something. -/
def reading? (v : Vocabulary) (key src : Bytes) : Option Bytes :=
  match bracedBody? src.trimSpace with
  | some body =>
    (canonical? key body.trimSpace).map fun out => Bytes.utf8 "\x7b" ++ out ++ Bytes.utf8 "\x7d"
  | none =>
    if isColour key || v.expression.has key then canonical? key src.trimSpace else none

/-- A value that cannot be read stays as it is. -/
theorem value_eq (v : Vocabulary) (a : Attribute) :
    value v a = (reading? v a.key a.value).getD a.value := by
  rw [value, reading?]
  cases bracedBody? a.value.trimSpace with
  | none =>
    simp only
    split <;> rfl
  | some body =>
    simp only
    cases canonical? a.key body.trimSpace <;> rfl

/-- What stands in braces, with its braces. -/
theorem eq_of_bracedBody? {s body : Bytes} (h : bracedBody? s = some body) :
    s = Bytes.utf8 "\x7b" ++ body ++ Bytes.utf8 "\x7d" := by
  cases s with
  | nil => cases h
  | cons b s =>
    simp only [bracedBody?] at h
    split at h
    · next hb =>
      obtain ⟨hopen, hlast⟩ := Bool.and_eq_true_iff.mp hb
      obtain ⟨t, rfl⟩ := List.getLast?_eq_some_iff.mp (eq_of_beq hlast)
      cases h
      rw [eq_of_beq hopen, List.dropLast_concat]
      rfl
    · cases h

/-- **A value in canonical form can stand between quotes, like the value itself.** -/
theorem quote_not_mem_value {v : Vocabulary} {a : Attribute} (h : '"'.toUInt8 ∉ a.value) :
    '"'.toUInt8 ∉ value v a := by
  have htrim {s : Bytes} (hs : '"'.toUInt8 ∉ s) : '"'.toUInt8 ∉ s.trimSpace := fun hmem =>
    hs (Bytes.mem_of_mem_trimSpace hmem)
  rw [value_eq]
  cases hr : reading? v a.key a.value with
  | none => exact h
  | some out =>
    rw [Option.getD_some]
    rw [reading?] at hr
    split at hr
    · next body hbody =>
      obtain ⟨out, hout, rfl⟩ := Option.map_eq_some_iff.mp hr
      have hmem : '"'.toUInt8 ∉ body := by
        have := htrim h
        rw [eq_of_bracedBody? hbody] at this
        simp_all
      have := quote_not_mem_canonical (htrim hmem) hout
      simp only [List.mem_append, not_or]
      exact ⟨⟨by decide, this⟩, by decide⟩
    · split at hr
      · exact quote_not_mem_canonical (htrim h) hr
      · cases hr

end Canonical

end LayoutMarkup

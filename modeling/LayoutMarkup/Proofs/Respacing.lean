import LayoutMarkup.Proofs.Lines
import LayoutMarkup.Proofs.Trimming

/-!
# Proofs/Respacing — texts that differ only in their gaps

Two texts are `Respaced` if one becomes the other when stretches of certain bytes, such as gaps, are
replaced by other stretches of them, none of which is empty.  Moving the lines of a text respaces it
(`respaced_shift`).

If only gaps are replaced, the lexemes of the text stay the same (`Lexes.regapped`), and a call is
still a call (`Call.Written.regapped`).  So a value can be read as something exactly if it can be
read with other gaps in it (`reading?_regapped`).
-/

namespace LayoutMarkup

/-- The lists differ only in stretches of items that satisfy `p`; where there is one in the first
list, there is one in the second. -/
inductive Respaced {α : Type} (p : α → Prop) : List α → List α → Prop
  | nil : Respaced p [] []
  | cons (a : α) {s t : List α} (h : Respaced p s t) : Respaced p (a :: s) (a :: t)
  | gap {w w' s t : List α} (hne : w ≠ []) (hw : ∀ a ∈ w, p a) (hne' : w' ≠ [])
      (hw' : ∀ a ∈ w', p a) (h : Respaced p s t) : Respaced p (w ++ s) (w' ++ t)

namespace Respaced

variable {α : Type} {p q : α → Prop} {a : α} {s t s' t' : List α}

theorem refl (p : α → Prop) : ∀ s : List α, Respaced p s s
  | [] => .nil
  | a :: s => .cons a (refl p s)

/-- Respacing can be undone. -/
theorem symm (h : Respaced p s t) : Respaced p t s := by
  induction h with
  | nil => exact .nil
  | cons a _ ih => exact .cons a ih
  | gap hne hw hne' hw' _ ih => exact .gap hne' hw' hne hw ih

/-- Texts are respaced part by part. -/
theorem append (h : Respaced p s t) (h' : Respaced p s' t') :
    Respaced p (s ++ s') (t ++ t') := by
  induction h with
  | nil => exact h'
  | cons a _ ih => exact .cons a ih
  | gap hne hw hne' hw' _ ih =>
    rw [List.append_assoc, List.append_assoc]
    exact .gap hne hw hne' hw' ih

/-- A stretch of white space can be replaced by any other. -/
theorem stretch {w w' : List α} (hne : w ≠ []) (hw : ∀ a ∈ w, p a) (hne' : w' ≠ [])
    (hw' : ∀ a ∈ w', p a) : Respaced p w w' := by
  have h := gap hne hw hne' hw' .nil
  rwa [List.append_nil, List.append_nil] at h

/-- Respacing does not know left from right. -/
theorem reverse (h : Respaced p s t) : Respaced p s.reverse t.reverse := by
  induction h with
  | nil => exact .nil
  | cons a _ ih =>
    rw [List.reverse_cons, List.reverse_cons]
    exact ih.append (refl p [a])
  | gap hne hw hne' hw' _ ih =>
    rw [List.reverse_append, List.reverse_append]
    refine ih.append (stretch ?_ ?_ ?_ ?_)
    · exact List.reverse_ne_nil_iff.mpr hne
    · exact fun a ha => hw a (List.mem_reverse.mp ha)
    · exact List.reverse_ne_nil_iff.mpr hne'
    · exact fun a ha => hw' a (List.mem_reverse.mp ha)

theorem mono (hpq : ∀ a, p a → q a) (h : Respaced p s t) : Respaced q s t := by
  induction h with
  | nil => exact .nil
  | cons a _ ih => exact .cons a ih
  | gap hne hw hne' hw' _ ih =>
    exact .gap hne (fun a ha => hpq a (hw a ha)) hne' (fun a ha => hpq a (hw' a ha)) ih

/-- A text made of white space stays one. -/
theorem forall_mem (h : Respaced p s t) (hs : ∀ a ∈ s, p a) : ∀ a ∈ t, p a := by
  induction h with
  | nil => exact hs
  | cons a _ ih =>
    obtain ⟨ha, hs⟩ := List.forall_mem_cons.mp hs
    exact List.forall_mem_cons.mpr ⟨ha, ih hs⟩
  | gap _ _ _ hw' _ ih =>
    exact List.forall_mem_append.mpr ⟨hw', ih (List.forall_mem_append.mp hs).2⟩

/-- A respaced text begins as before, or with white space. -/
theorem head_mem (h : Respaced p s t) : ∀ a ∈ t.head?, a ∈ s.head? ∨ p a := by
  cases h with
  | nil => exact fun _ ha => nomatch ha
  | cons a _ => exact fun _ ha => .inl ha
  | @gap _ w' _ _ _ _ hne' hw' _ =>
    intro a ha
    obtain ⟨b, w', rfl⟩ := List.exists_cons_of_ne_nil hne'
    obtain rfl : b = a := Option.some.inj ha
    exact .inr (hw' b List.mem_cons_self)

/-- White space is neither removed altogether nor put where there was none. -/
theorem eq_nil_iff (h : Respaced p s t) : s = [] ↔ t = [] := by
  cases h with
  | nil => exact Iff.rfl
  | cons a _ => exact iff_of_false (List.cons_ne_nil _ _) (List.cons_ne_nil _ _)
  | gap hne _ hne' => simp [hne, hne']

/-- **An item that does not satisfy `p` stands in both lists**, and what is before it and behind it
is respaced. -/
theorem exists_of_append_cons (ha : ¬ p a) (h : Respaced p (s ++ a :: s') t) :
    ∃ u u', t = u ++ a :: u' ∧ Respaced p s u ∧ Respaced p s' u' := by
  generalize hx : s ++ a :: s' = x at h
  induction h generalizing s with
  | nil => exact absurd hx (by simp)
  | @cons b x y h ih =>
    rcases s with _ | ⟨c, s⟩
    · obtain ⟨rfl, rfl⟩ := List.cons.inj hx
      exact ⟨[], y, rfl, .nil, h⟩
    · obtain ⟨rfl, hs⟩ := List.cons.inj hx
      obtain ⟨u, u', rfl, hu, hu'⟩ := ih hs
      exact ⟨c :: u, u', rfl, .cons c hu, hu'⟩
  | @gap w w' x y hne hw hne' hw' _ ih =>
    -- The item is none of the gap, so it stands behind it.
    obtain ⟨v, rfl, hv⟩ | ⟨v, rfl, hv⟩ := List.append_eq_append_iff.mp hx
    · rcases v with _ | ⟨b, v⟩
      · obtain ⟨u, u', rfl, hu, hu'⟩ := ih (s := []) hv
        rw [List.append_nil] at hw hne
        obtain rfl : u = [] := hu.eq_nil_iff.mp rfl
        exact ⟨w', u', rfl, stretch hne hw hne' hw', hu'⟩
      · obtain ⟨rfl, -⟩ := List.cons.inj hv
        exact absurd (hw a (by simp)) ha
    · obtain ⟨u, u', rfl, hu, hu'⟩ := ih hv.symm
      exact ⟨w' ++ u, u', by rw [List.append_assoc], .gap hne hw hne' hw' hu, hu'⟩

/-- Items that do not satisfy `p` at the beginning stay there. -/
theorem exists_of_append (hs : ∀ a ∈ s, ¬ p a) (h : Respaced p (s ++ s') t) :
    ∃ u, t = s ++ u ∧ Respaced p s' u := by
  induction s generalizing t with
  | nil => exact ⟨t, rfl, h⟩
  | cons a s ih =>
    obtain ⟨ha, hs⟩ := List.forall_mem_cons.mp hs
    obtain ⟨u, u', rfl, hu, hu'⟩ := exists_of_append_cons (s := []) ha h
    obtain rfl : u = [] := hu.eq_nil_iff.mp rfl
    obtain ⟨u, rfl, hu⟩ := ih hs hu'
    exact ⟨u, rfl, hu⟩

/-- A word of such items stands in both lists. -/
theorem exists_of_word {v : List α} (hne : v ≠ []) (hv : ∀ a ∈ v, ¬ p a)
    (h : Respaced p (s ++ (v ++ s')) t) :
    ∃ u u', t = u ++ (v ++ u') ∧ Respaced p s u ∧ Respaced p s' u' := by
  obtain ⟨a, v, rfl⟩ := List.exists_cons_of_ne_nil hne
  obtain ⟨ha, hv⟩ := List.forall_mem_cons.mp hv
  obtain ⟨u, t, rfl, hu, ht⟩ := exists_of_append_cons ha h
  obtain ⟨u', rfl, hu'⟩ := exists_of_append hv ht
  exact ⟨u, u', rfl, hu, hu'⟩

/-- Items that satisfy `p` can be dropped at the beginning of both lists. -/
theorem dropWhile {r : α → Bool} (hr : ∀ a, p a → r a = true) (h : Respaced p s t) :
    Respaced p (s.dropWhile r) (t.dropWhile r) := by
  induction h with
  | nil => exact .nil
  | cons a h ih =>
    rw [List.dropWhile_cons, List.dropWhile_cons]
    split
    · exact ih
    · exact .cons a h
  | gap _ hw _ hw' _ ih =>
    rw [List.dropWhile_append_of_pos fun a ha => hr a (hw a ha),
      List.dropWhile_append_of_pos fun a ha => hr a (hw' a ha)]
    exact ih

/-- The same at the end of the text. -/
theorem rdropWhile {r : α → Bool} (hr : ∀ a, p a → r a = true) (h : Respaced p s t) :
    Respaced p (s.rdropWhile r) (t.rdropWhile r) :=
  (h.reverse.dropWhile hr).reverse

end Respaced

/-! ## Characters -/

section

variable {p : UInt8 → Prop} (hp : ∀ b, p b → Bytes.isBlank b = true) {b : UInt8} {s t : Bytes}
include hp

/-- A character that does not begin with a gap stands in both texts. -/
theorem Respaced.exists_of_encode {c : Char} {r : Bytes} (hb : ¬ p b) (h : Respaced p s t)
    (hc : b :: s = String.utf8EncodeChar c ++ r) :
    ∃ r', b :: t = String.utf8EncodeChar c ++ r' ∧ Respaced p r r' := by
  have hbytes : ∀ x ∈ String.utf8EncodeChar c, ¬ p x := by
    intro x hx hpx
    have hlt := Bytes.lt_of_isBlank (hp x hpx)
    rw [Bytes.eq_ofNat_of_mem_encode hx hlt, Bytes.encode_byte hlt] at hc
    obtain rfl := (List.cons.inj hc).1
    exact hb hpx
  have hall : Respaced p (String.utf8EncodeChar c ++ r) (b :: t) := hc ▸ .cons b h
  exact hall.exists_of_append hbytes

/-- The glyph of a gap. -/
def IsSpacer (p : UInt8 → Prop) (g : Glyph) : Prop := ∃ b, p b ∧ g = Bytes.ascii b

omit hp in
theorem isSpacer_of_mem {w : Bytes} (hw : ∀ b ∈ w, p b) :
    ∀ g ∈ w.map Bytes.ascii, IsSpacer p g := by
  intro g hg
  obtain ⟨b, hb, rfl⟩ := List.mem_map.mp hg
  exact ⟨b, hw b hb, rfl⟩

/-- **Respaced texts have respaced glyphs.** -/
theorem Respaced.glyphs (h : Respaced p s t) : Respaced (IsSpacer p) s.glyphs t.glyphs := by
  have hascii : ∀ b, p b → b < 0x80 := fun b hb => Bytes.lt_of_isBlank (hp b hb)
  induction hn : s.length using Nat.strongRecOn generalizing s t with
  | ind n ih =>
  subst hn
  cases h with
  | nil => exact refl _ _
  | gap hne hw hne' hw' h =>
    rw [Bytes.glyphs_ascii_append fun b hb => hascii b (hw b hb),
      Bytes.glyphs_ascii_append fun b hb => hascii b (hw' b hb)]
    refine .gap (by simpa using hne) (isSpacer_of_mem hw) (by simpa using hne')
      (isSpacer_of_mem hw') (ih _ ?_ h rfl)
    rw [List.length_append]
    have := List.length_pos_iff.mpr hne
    omega
  | @cons b s t h =>
    by_cases hb : p b
    · rw [Bytes.glyphs_cons (hascii b hb), Bytes.glyphs_cons (hascii b hb)]
      exact .cons _ (ih _ (Nat.lt_succ_self _) h rfl)
    rcases hs : Bytes.glyph? (b :: s) with _ | ⟨c | x, r⟩
    · exact absurd (Bytes.glyph?_eq_none hs) (List.cons_ne_nil _ _)
    · have hlt := Bytes.length_rest_lt hs
      obtain ⟨r', hr', hrest⟩ := h.exists_of_encode hp hb (Bytes.eq_encode_append_of_glyph? hs)
      rw [Bytes.glyphs_of_glyph? hs, hr', Bytes.glyphs_of_glyph? (Bytes.glyph?_encode_append c r')]
      exact .cons _ (ih _ hlt hrest rfl)
    · obtain ⟨rfl, rfl⟩ := List.cons.inj (Bytes.eq_cons_of_glyph? hs)
      rcases ht : Bytes.glyph? (b :: t) with _ | ⟨c | y, r⟩
      · exact absurd (Bytes.glyph?_eq_none ht) (List.cons_ne_nil _ _)
      · obtain ⟨r', hr', -⟩ := h.symm.exists_of_encode hp hb (Bytes.eq_encode_append_of_glyph? ht)
        rw [hr', Bytes.glyph?_encode_append] at hs
        cases hs
      · obtain ⟨rfl, rfl⟩ := List.cons.inj (Bytes.eq_cons_of_glyph? ht)
        rw [Bytes.glyphs_of_glyph? hs, Bytes.glyphs_of_glyph? ht]
        exact .cons _ (ih _ (Nat.lt_succ_self _) h rfl)

/-- A spacer is white space. -/
theorem IsSpacer.isSpace {g : Glyph} (h : IsSpacer p g) : g.is isSpace = true := by
  obtain ⟨b, hb, rfl⟩ := h
  have hblank := hp b hb
  simp only [Bytes.isBlank, Bool.or_eq_true, beq_iff_eq] at hblank
  rcases hblank with (((rfl | rfl) | rfl) | rfl) | rfl <;> decide

omit hp in
theorem IsSpacer.bytes {g : Glyph} (hlt : ∀ b, p b → b < 0x80) (h : IsSpacer p g) :
    ∃ b, p b ∧ g.bytes = [b] := by
  obtain ⟨b, hb, rfl⟩ := h
  exact ⟨b, hb, Bytes.encode_byte (hlt b hb)⟩

omit hp in
/-- Texts whose glyphs are respaced are respaced. -/
theorem respaced_flatMap {gs hs : List Glyph} (hlt : ∀ b, p b → b < 0x80)
    (h : Respaced (IsSpacer p) gs hs) :
    Respaced p (gs.flatMap Glyph.bytes) (hs.flatMap Glyph.bytes) := by
  have hne {w : List Glyph} (hne : w ≠ []) (hw : ∀ g ∈ w, IsSpacer p g) :
      w.flatMap Glyph.bytes ≠ [] := by
    obtain ⟨g, w, rfl⟩ := List.exists_cons_of_ne_nil hne
    obtain ⟨b, -, hb⟩ := (hw g List.mem_cons_self).bytes hlt
    rw [List.flatMap_cons, hb]
    exact List.cons_ne_nil _ _
  have hall {w : List Glyph} (hw : ∀ g ∈ w, IsSpacer p g) : ∀ b ∈ w.flatMap Glyph.bytes, p b := by
    intro b hb
    obtain ⟨g, hg, hbg⟩ := List.mem_flatMap.mp hb
    obtain ⟨x, hx, hbytes⟩ := (hw g hg).bytes hlt
    rw [hbytes] at hbg
    obtain rfl := List.mem_singleton.mp hbg
    exact hx
  induction h with
  | nil => exact .nil
  | cons g _ ih =>
    rw [List.flatMap_cons, List.flatMap_cons]
    exact (Respaced.refl p _).append ih
  | gap hw hgap hw' hgap' _ ih =>
    rw [List.flatMap_append, List.flatMap_append]
    exact .gap (hne hw hgap) (hall hgap) (hne hw' hgap') (hall hgap') ih

/-- Trimming a respaced text respaces what is left. -/
theorem Respaced.trimSpace (h : Respaced p s t) : Respaced p s.trimSpace t.trimSpace :=
  respaced_flatMap (fun b hb => Bytes.lt_of_isBlank (hp b hb))
    (((h.glyphs hp).dropWhile fun _ => IsSpacer.isSpace hp).rdropWhile fun _ => IsSpacer.isSpace hp)

theorem Respaced.tight_head {gs hs : List Glyph} (h : Respaced (IsSpacer p) gs hs)
    (hgs : ∀ g ∈ gs.head?, g.is isSpace = false) : ∀ g ∈ hs.head?, g.is isSpace = false := by
  intro g hg
  rcases gs with _ | ⟨g', gs⟩
  · rw [h.eq_nil_iff.mp rfl] at hg
    contradiction
  · have hg' := hgs g' rfl
    rcases h.symm.head_mem g' rfl with hmem | hspacer
    · obtain rfl := Option.some.inj (hg.symm.trans hmem)
      exact hg'
    · rw [hspacer.isSpace hp] at hg'
      contradiction

/-- **A text without white space at its ends has none there when it is respaced.** -/
theorem Respaced.trimSpace_eq_self (h : Respaced p s t) (hs : s.trimSpace = s) :
    t.trimSpace = t := by
  rw [Bytes.trimSpace_eq_self_iff] at hs ⊢
  have hglyphs := h.glyphs hp
  refine ⟨hglyphs.tight_head hp hs.1, ?_⟩
  rw [← List.head?_reverse]
  refine hglyphs.reverse.tight_head hp ?_
  rw [List.head?_reverse]
  exact hs.2

/-- White space ends a stretch whatever it is made of. -/
theorem Respaced.stops {q : Char → Bool} (hq : ∀ b, p b → q (Char.ofNat b.toNat) = false)
    (h : Respaced p s t) (hs : s.Stops q) : t.Stops q := by
  have hgap {b : UInt8} (hb : p b) (u : Bytes) : Bytes.Stops q (b :: u) :=
    Bytes.stops_cons (Bytes.lt_of_isBlank (hp b hb)) (hq b hb) u
  cases h with
  | nil => exact hs
  | @cons b s t h =>
    by_cases hb : p b
    · exact hgap hb t
    · intro c r hr
      obtain ⟨r', hr', -⟩ := h.symm.exists_of_encode hp hb hr
      exact hs c r' hr'
  | gap _ _ hne' hw' _ =>
    obtain ⟨b, w', rfl⟩ := List.exists_cons_of_ne_nil hne'
    exact hgap (hw' b List.mem_cons_self) _

end

/-! ## Lines -/

namespace Canonical

open Bytes (lf lines_of_not_mem lines_append_cons lines_induction)

section

variable {p : UInt8 → Prop} (hlf : p lf) (hindent : ∀ b, isIndent b = true → p b) {pad : Bytes}
  (hpad : ∀ b ∈ pad, isIndent b = true) {n : Nat} {s : Bytes}
include hlf hindent hpad

/-- To move lines is to respace them, if blank ones are made of white space that may go. -/
theorem respaced_moved (hblank : ∀ l ∈ s.lines, isBlankLine l = true → ∀ b ∈ l, p b)
    (h : DeepLines n s.lines) : Respaced p (lf :: s) (moved pad n s.lines) := by
  -- A line feed and the indentation behind it give way to a line feed and `pad`.
  have hline {l : Bytes} (hn : n ≤ indentation l) :
      Respaced p (lf :: l) (lf :: (pad ++ l.drop n)) := by
    have htake : ∀ b ∈ lf :: l.take n, p b :=
      List.forall_mem_cons.mpr ⟨hlf, fun b hb => hindent b (isIndent_of_mem_take hn b hb)⟩
    have hpad' : ∀ b ∈ lf :: pad, p b :=
      List.forall_mem_cons.mpr ⟨hlf, fun b hb => hindent b (hpad b hb)⟩
    have hgap := Respaced.gap (List.cons_ne_nil _ _) htake (List.cons_ne_nil _ _) hpad'
      (Respaced.refl p (l.drop n))
    rwa [List.cons_append, List.take_append_drop] at hgap
  induction s using lines_induction with
  | line l hl =>
    rw [moved_line hl]
    exact hline ((deepLines_line hl).mp h)
  | cons l s hl ih =>
    obtain ⟨hdeep, hrest⟩ := (deepLines_cons hl s).mp h
    rw [lines_append_cons hl, List.forall_mem_cons] at hblank
    have hmoved := ih hblank.2 hrest
    rw [moved_cons hl, movedLine]
    split
    · next hb =>
      have hgap : Respaced p (lf :: l) [lf] := .stretch (List.cons_ne_nil _ _)
        (List.forall_mem_cons.mpr ⟨hlf, hblank.1 hb⟩) (List.cons_ne_nil _ _)
        (List.forall_mem_singleton.mpr hlf)
      exact hgap.append hmoved
    · next hb => exact (hline (hdeep (by simpa using hb))).append hmoved

/-- **Moving the lines of a text respaces it**, if `p` holds in the blank lines. -/
theorem respaced_shift (hblank : ∀ l ∈ s.lines, isBlankLine l = true → ∀ b ∈ l, p b)
    (h : Deep n s) : Respaced p s (shift pad n s) := by
  induction s using lines_induction with
  | line l hl =>
    rw [shift_line hl]
    exact .refl p l
  | cons l s hl _ =>
    rw [lines_append_cons hl, List.forall_mem_cons] at hblank
    rw [shift_cons hl]
    exact (Respaced.refl p l).append
      (respaced_moved hlf hindent hpad hblank.2 ((deep_cons hl s).mp h))

end

/-- Whatever stands in the lines of a text, moving them changes blanks alone. -/
theorem respaced_isBlank_shift {pad s : Bytes} {n : Nat} (hpad : ∀ b ∈ pad, isIndent b = true)
    (h : Deep n s) : Respaced (fun b => Bytes.isBlank b = true) s (shift pad n s) :=
  respaced_shift (by decide) (fun _ => isBlank_of_isIndent) hpad
    (fun _ _ hl => List.all_eq_true.mp hl) h

end Canonical

/-! ## Lexemes -/

/-- The texts differ only in their gaps. -/
abbrev Regapped (s t : Bytes) : Prop := Respaced (fun b => Scan.isGap b = true) s t

/-- A lexeme ends where it did before. -/
theorem Lexeme.Stands.regapped {l : Lexeme} {s t : Bytes} (hl : l.Stands s) (h : Regapped s t) :
    l.Stands t := by
  have hgap : ∀ b, Scan.isGap b = true → Bytes.isDigit b = false ∧ b ≠ '.'.toUInt8 := fun b hb =>
    (by decide : ∀ b ∈ gapBytes, Bytes.isDigit b = false ∧ b ≠ '.'.toUInt8) b (mem_gapBytes hb)
  cases hl with
  | whole hne hds hrest =>
    exact .whole hne hds fun b hb => (h.head_mem b hb).elim (hrest b) (hgap b)
  | decimal hds hne hfs hrest =>
    exact .decimal hds hne hfs fun b hb =>
      (h.head_mem b hb).elim (hrest b) fun hb => (hgap b hb).1
  | name hs hrest =>
    refine .name hs (h.stops (fun _ => isBlank_of_isGap) (fun b hb => ?_) hrest)
    exact (by decide : ∀ b ∈ gapBytes, isIdentifierPart (Char.ofNat b.toNat) = false) b
      (mem_gapBytes hb)
  | operator hop => exact .operator hop
  | leftParen => exact .leftParen
  | rightParen => exact .rightParen

/-- **The gaps of a text do not matter to its lexemes.** -/
theorem Lexes.regapped {s : Bytes} {ls : List Lexeme} (hs : Lexes s ls) :
    ∀ {t : Bytes}, Regapped s t → Lexes t ls := by
  induction hs with
  | nil hw => exact fun h => .nil (h.forall_mem hw)
  | @cons w rest l ls hw hl _ ih =>
    intro t h
    have htext : ∀ b ∈ l.text, ¬ Scan.isGap b = true := fun b hb hgap => by
      have hblank := hl.not_blank b hb
      rw [isBlank_of_isGap hgap] at hblank
      contradiction
    obtain ⟨u, u', rfl, hu, hu'⟩ := h.exists_of_word hl.text_ne_nil htext
    exact .cons (hu.forall_mem hw) (hl.regapped hu') (ih hu')

/-! ## Calls -/

theorem forall_mem_of_forall₂ {α β : Type} {R : α → β → Prop} {P : α → Prop} {Q : β → Prop}
    {as : List α} {bs : List β} (h : List.Forall₂ R as bs) (hstep : ∀ a b, R a b → P a → Q b)
    (has : ∀ a ∈ as, P a) : ∀ b ∈ bs, Q b := by
  induction h with
  | nil => exact fun _ hb => nomatch hb
  | cons hab _ ih =>
    obtain ⟨ha, has⟩ := List.forall_mem_cons.mp has
    exact List.forall_mem_cons.mpr ⟨hstep _ _ hab ha, ih has⟩

namespace Call

/-- The byte neither opens, closes nor separates anything. -/
def Idle (b : UInt8) : Prop := b ≠ '('.toUInt8 ∧ b ≠ ')'.toUInt8 ∧ b ≠ comma

theorem idle_of_isBlank {b : UInt8} (h : Bytes.isBlank b = true) : Idle b := by
  refine ⟨?_, ?_, ?_⟩ <;> (rintro rfl; exact absurd h (by decide))

/-- Bytes that neither open nor close anything leave the depth as it is. -/
theorem depth?_idle {w : Bytes} (hw : ∀ b ∈ w, Idle b) (depth : Nat) (s : Bytes) :
    depth? depth (w ++ s) = depth? depth s := by
  induction w with
  | nil => rfl
  | cons b w ih =>
    obtain ⟨⟨hopen, hclose, hcomma⟩, hw⟩ := List.forall_mem_cons.mp hw
    have hstops : stops depth b = false := by simp [stops, hclose, hcomma]
    have hstep : step depth b = depth := by simp [step, hopen, hclose]
    rw [List.cons_append, depth?, hstops, hstep]
    exact ih hw

/-- Blanks do not open or close anything. -/
theorem depth?_respaced {s t : Bytes} (h : Respaced (fun b => Bytes.isBlank b = true) s t) :
    ∀ depth, depth? depth s = depth? depth t := by
  induction h with
  | nil => exact fun _ => rfl
  | cons b _ ih =>
    intro depth
    rw [depth?, depth?, ih]
  | gap _ hw _ hw' _ ih =>
    intro depth
    rw [depth?_idle fun b hb => idle_of_isBlank (hw b hb),
      depth?_idle fun b hb => idle_of_isBlank (hw' b hb), ih]

/-- Arguments are respaced one by one, since no comma is white space. -/
theorem exists_of_intercalate {p : UInt8 → Prop} (hp : ¬ p comma) {raws : List Bytes} {t : Bytes}
    (hne : raws ≠ []) (h : Respaced p ([comma].intercalate raws) t) :
    ∃ raws', t = [comma].intercalate raws' ∧ List.Forall₂ (Respaced p) raws raws' := by
  induction raws generalizing t with
  | nil => exact absurd rfl hne
  | cons raw raws ih =>
    rcases raws with _ | ⟨raw', raws⟩
    · rw [List.intercalate_singleton] at h
      exact ⟨[t], List.intercalate_singleton.symm, .cons h .nil⟩
    · rw [List.intercalate_cons_cons, List.append_assoc] at h
      obtain ⟨u, u', rfl, hu, hu'⟩ := h.exists_of_append_cons hp
      obtain ⟨raws', rfl, hraws⟩ := ih (List.cons_ne_nil _ _) hu'
      obtain ⟨x, xs, rfl⟩ := List.exists_cons_of_ne_nil (l := raws') (by rintro rfl; cases hraws)
      refine ⟨u :: x :: xs, ?_, .cons hu hraws⟩
      rw [List.intercalate_cons_cons, List.append_assoc]
      rfl

/-- **A call is still one when it is respaced**, with respaced arguments. -/
theorem Written.regapped {name s t : Bytes} {raws : List Bytes} (hs : Written name raws s)
    (h : Regapped s t) :
    ∃ raws', Written name raws' t ∧ List.Forall₂ Regapped raws raws' := by
  obtain @⟨w, w', w'', hw, hname, hw', hne, hclosed, hw''⟩ := hs
  have hgap : ∀ b ∈ name, ¬ Scan.isGap b = true := fun b hb => by
    rw [not_gap_of_isIdentifier hname b hb]
    exact Bool.false_ne_true
  obtain ⟨u, v, rfl, hu, hv⟩ := h.exists_of_word (Bytes.IsWord.ne_nil hname) hgap
  rw [arguments, List.cons_append, List.append_assoc] at hv
  obtain ⟨u', v, rfl, hu', hv⟩ := hv.exists_of_append_cons (by decide)
  obtain ⟨v, u'', rfl, hv, hu''⟩ := hv.exists_of_append_cons (by decide)
  obtain ⟨raws', rfl, hraws⟩ := exists_of_intercalate (by decide) hne hv
  refine ⟨raws', ?_, hraws⟩
  have hne' : raws' ≠ [] := by
    rintro rfl
    cases hraws
    exact hne rfl
  have hclosed' : ∀ r ∈ raws', Closed r :=
    forall_mem_of_forall₂ hraws (fun r r' hr hclosed =>
      (depth?_respaced (hr.mono (fun _ => isBlank_of_isGap)) 0).symm.trans hclosed) hclosed
  have hwritten := Written.intro (hu.forall_mem hw) hname (hu'.forall_mem hw') hne' hclosed'
    (hu''.forall_mem hw'')
  rw [arguments, List.cons_append, List.append_assoc] at hwritten
  exact hwritten

/-- Respaced texts are both calls, or neither is. -/
theorem parse_regapped {s t : Bytes} (h : Regapped s t) {c : Call} (hs : parse s = .ok c) :
    ∃ c', parse t = .ok c' := by
  obtain ⟨raws, hwritten, hraws, -⟩ := written_of_parse hs
  obtain ⟨raws', hwritten', hregapped⟩ := hwritten.regapped h
  have hraws' : ∀ r ∈ raws', r.trimSpace ≠ [] :=
    forall_mem_of_forall₂ hregapped (fun r r' hr hne hnil =>
      hne ((hr.trimSpace (fun _ => isBlank_of_isGap)).eq_nil_iff.mpr hnil)) hraws
  exact ⟨_, parse_of_written hwritten' hraws'⟩

end Call

/-! ## Values -/

/-- **Gaps do not matter for an expression.** -/
theorem Expr.parse_regapped {s t : Bytes} (h : Regapped s t) {e : Expr} (hs : parse s = .ok e) :
    parse t = .ok e := by
  obtain ⟨ls, hlexes, hderives, hbounded⟩ := parse_iff_derives.mp hs
  exact parse_iff_derives.mpr ⟨ls, hlexes.regapped h, hderives, hbounded⟩

/-- The gaps of an expression do not matter to what it means as a formula. -/
theorem Formula.read?_regapped {s t : Bytes} (h : Regapped s t) {e : Expr}
    (hs : Expr.parse s = .ok e) : read? s = read? t := by
  obtain ⟨ls, hlexes, hderives, -⟩ := Expr.parse_iff_derives.mp hs
  have hsame {s t : Bytes} (hs : Lexes s ls) (ht : Lexes t ls) {u : Term} (hu : read? s = some u) :
      read? t = some u := by
    obtain ⟨hplain, ts, hts⟩ := plain_of_read? hs hderives hu
    rw [read?_of_derives ht hderives hplain hts, ← read?_of_derives hs hderives hplain hts, hu]
  exact Option.ext fun u => ⟨hsame hlexes (hlexes.regapped h), hsame (hlexes.regapped h) hlexes⟩

namespace Canonical

/-- A value that can be read can be read with other gaps. -/
theorem canonical?_regapped {key s t out : Bytes} (h : Regapped s t)
    (hs : canonical? key s = some out) : ∃ out', canonical? key t = some out' := by
  rw [canonical?] at hs ⊢
  split at hs
  · next hcolour =>
    obtain ⟨c, hc, -⟩ := canonicalColour?_eq_some hs
    obtain ⟨c', hc'⟩ := Call.parse_regapped h hc
    rw [if_pos hcolour, canonicalColour?, Call.format, hc']
    exact ⟨_, rfl⟩
  · next hcolour =>
    obtain ⟨e, he, -⟩ := canonicalExpr?_eq_some hs
    have hagrees : Formula.agrees t = Formula.agrees s := by
      funext o
      rw [Formula.agrees, Formula.agrees, Formula.read?_regapped h he]
    rw [canonicalExpr?, Expr.format, he] at hs
    rw [if_neg hcolour, canonicalExpr?, Expr.format, Expr.parse_regapped h he, hagrees]
    exact ⟨out, hs⟩

theorem bracedBody?_braced (s : Bytes) :
    bracedBody? (Bytes.utf8 "\x7b" ++ s ++ Bytes.utf8 "\x7d") = some s := by
  have hopen : Bytes.utf8 "\x7b" = ['\x7b'.toUInt8] := by decide
  have hclose : Bytes.utf8 "\x7d" = ['\x7d'.toUInt8] := by decide
  rw [hopen, hclose, List.append_assoc, List.singleton_append, bracedBody?]
  simp

/-- The braces stay, and what stands in them has other gaps. -/
theorem bracedBody?_regapped {s t body : Bytes} (h : Regapped s t)
    (hs : bracedBody? s = some body) :
    ∃ body', bracedBody? t = some body' ∧ Regapped body body' := by
  rw [eq_of_bracedBody? hs, List.append_assoc] at h
  obtain ⟨u, rfl, hu⟩ := h.exists_of_append (by decide)
  obtain ⟨body', v, rfl, hbody, hv⟩ := hu.exists_of_append_cons (by decide)
  obtain rfl : v = [] := hv.eq_nil_iff.mp rfl
  refine ⟨body', ?_, hbody⟩
  rw [← bracedBody?_braced body', List.append_assoc]
  rfl

/-- **A value can be read as something exactly if a respaced one can.** -/
theorem reading?_regapped {v : Vocabulary} {key s t out : Bytes} (h : Regapped s t)
    (hs : reading? v key s = some out) : ∃ out', reading? v key t = some out' := by
  have htrim := h.trimSpace (fun _ => isBlank_of_isGap)
  rw [reading?] at hs ⊢
  split at hs
  · next body hbody =>
    obtain ⟨c, hc, -⟩ := Option.map_eq_some_iff.mp hs
    obtain ⟨body', hbody', hregapped⟩ := bracedBody?_regapped htrim hbody
    obtain ⟨c', hc'⟩ := canonical?_regapped (hregapped.trimSpace (fun _ => isBlank_of_isGap)) hc
    rw [hbody']
    simp only [hc']
    exact ⟨_, rfl⟩
  · next hnone =>
    have hnone' : bracedBody? t.trimSpace = none := by
      rcases hbody : bracedBody? t.trimSpace with _ | body
      · rfl
      · obtain ⟨body', hbody', -⟩ := bracedBody?_regapped htrim.symm hbody
        rw [hnone] at hbody'
        contradiction
    rw [hnone']
    split at hs
    · next hkind =>
      simp only [hkind, if_true]
      exact canonical?_regapped htrim hs
    · contradiction

end Canonical

end LayoutMarkup

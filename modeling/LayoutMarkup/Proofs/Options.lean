import LayoutMarkup.Markup.Document
import Mathlib.Data.List.Basic

/-!
# Proofs/Options — what the options of reading decide

The options decide whether a text is read, never what it is read as.  With more void elements and
more room, every step of the builder that went well goes well in the same way (`Builder.take_ok`),
and so does the whole run (`Document.parse_ok`).  The licence to leave out more closing tags is not
taken up: an element that had to be closed by a tag of its own has been.

Hence any two options that accept a text agree on its document (`Document.eq_of_parse`).
-/

namespace LayoutMarkup

/-- The options `o'` allow all that `o` allow. -/
structure ParseOptions.Within (o o' : ParseOptions) : Prop where
  void : ∀ name ∈ o.void, name ∈ o'.void
  maxDepth : o.maxDepth ≤ o'.maxDepth

theorem ParseOptions.Within.refl (o : ParseOptions) : o.Within o := ⟨fun _ h => h, Nat.le_refl _⟩

/-- Options that allow what one or the other allows. -/
def ParseOptions.join (o o' : ParseOptions) : ParseOptions where
  void := o.void.union o'.void
  maxDepth := max o.maxDepth o'.maxDepth

theorem ParseOptions.within_join_left (o o' : ParseOptions) : o.Within (o.join o') :=
  ⟨fun _ h => NameSet.mem_union.mpr (.inl h), Nat.le_max_left _ _⟩

theorem ParseOptions.within_join_right (o o' : ParseOptions) : o'.Within (o.join o') :=
  ⟨fun _ h => NameSet.mem_union.mpr (.inr h), Nat.le_max_right _ _⟩

/-- A greater limit allows more, unless the smaller one means the default. -/
theorem ParseOptions.depthOf_le {limit limit' : Int} (h : 1 ≤ limit) (hle : limit ≤ limit') :
    depthOf limit ≤ depthOf limit' := by
  rw [depthOf, depthOf, if_pos (by omega), if_pos (by omega)]
  omega

namespace Builder

variable {o o' : ParseOptions} {src src' : Bytes} {b b' : Builder} {t : Token}

/-! ## A step -/

/-- A closing tag ends the same elements when more of them are void: those above the one it names
were void before. -/
theorem closeTo_ok (h : o.Within o') {name : Bytes} {r : List Node × List OpenElement}
    {nodes : List Node} {stack : List OpenElement}
    (hok : closeTo o.void name nodes stack = .ok r) : closeTo o'.void name nodes stack = .ok r := by
  induction stack generalizing nodes with
  | nil => exact hok
  | cons e stack ih =>
    rw [closeTo] at hok ⊢
    split at hok
    · next hname => rw [if_pos hname, hok]
    · next hname =>
      rw [if_neg hname]
      split at hok
      · next hvoid =>
        have hvoid' := h.void _ (NameSet.has_iff.mp hvoid)
        rw [if_pos (NameSet.has_iff.mpr hvoid'), ih hok]
      · contradiction

/-- The end of the document ends the same elements when more of them are void. -/
theorem closeAll_ok (h : o.Within o') {r nodes : List Node} {stack : List OpenElement}
    (hok : closeAll o.void nodes stack = .ok r) : closeAll o'.void nodes stack = .ok r := by
  induction stack generalizing nodes with
  | nil => exact hok
  | cons e stack ih =>
    rw [closeAll] at hok ⊢
    split at hok
    · next hvoid =>
      have hvoid' := h.void _ (NameSet.has_iff.mp hvoid)
      rw [if_pos (NameSet.has_iff.mpr hvoid'), ih hok]
    · contradiction

/-- A closing tag that is taken is taken under wider options. -/
theorem takeCloseTag_ok (h : o.Within o') (hok : takeCloseTag o src b t = .ok b') :
    takeCloseTag o' src' b t = .ok b' := by
  rw [takeCloseTag] at hok ⊢
  split at hok
  · next hclose =>
    rw [closeTo_ok h hclose]
    exact hok
  · contradiction

/-- The end of a text that is taken is taken under wider options. -/
theorem takeFinish_ok (h : o.Within o') (hok : takeFinish o src b t = .ok b') :
    takeFinish o' src' b t = .ok b' := by
  rw [takeFinish] at hok ⊢
  split at hok
  · next hclose =>
    rw [closeAll_ok h hclose]
    exact hok
  · contradiction

theorem takeTagEnd_ok (h : o.Within o') {d : Draft} (hok : takeTagEnd o src b d = .ok b') :
    takeTagEnd o' src' b d = .ok b' := by
  rw [takeTagEnd] at hok ⊢
  split at hok
  · next hroom => rw [if_pos (Nat.lt_of_lt_of_le hroom h.maxDepth), hok]
  · contradiction

theorem takeInContent_ok (h : o.Within o') (hok : takeInContent o src b t = .ok b') :
    takeInContent o' src' b t = .ok b' := by
  obtain ⟨kind, text, pos⟩ := t
  cases kind with
  | text | comment | tagName => exact hok
  | closeTag => exact takeCloseTag_ok h hok
  | finish => exact takeFinish_ok h hok
  | _ => contradiction

theorem takeInTag_ok (h : o.Within o') {d : Draft} (hok : takeInTag o src b d t = .ok b') :
    takeInTag o' src' b d t = .ok b' := by
  obtain ⟨kind, text, pos⟩ := t
  obtain ⟨name, offset, attributes, _ | key⟩ := d
  · cases kind with
    | key | selfClose => exact hok
    | tagEnd => exact takeTagEnd_ok h hok
    | _ => contradiction
  · cases kind with
    | value => exact hok
    | _ => contradiction

/-- **A token that is taken is taken in the same way with more allowed, whatever text it is in.**
Only closing tags, the end of the document and the end of a start tag look at the options at all,
and the text is for errors to show. -/
theorem take_ok (h : o.Within o') (hok : take o src b t = .ok b') : take o' src' b t = .ok b' := by
  rw [take] at hok ⊢
  rcases hdraft : b.draft with _ | d
  · rw [hdraft] at hok
    exact takeInContent_ok h hok
  · rw [hdraft] at hok
    exact takeInTag_ok h hok

end Builder

/-! ## A run -/

/-- A fold that goes well step by step goes well in the same way with steps that can do more. -/
theorem foldlM_ok {α β ε : Type} {f g : β → α → Except ε β}
    (h : ∀ b a b', f b a = .ok b' → g b a = .ok b') {l : List α} {b c : β}
    (hok : l.foldlM f b = .ok c) : l.foldlM g b = .ok c := by
  induction l generalizing b with
  | nil => exact hok
  | cons a l ih =>
    rw [List.foldlM_cons] at hok ⊢
    rcases hstep : f b a with e | b'
    · rw [hstep] at hok
      contradiction
    · rw [hstep] at hok
      rw [h b a b' hstep]
      exact ih hok

namespace Document

variable {o o' : ParseOptions} {src : Bytes} {d d' : Document}

/-- **A document that is read is read in the same way under wider options.** -/
theorem parse_ok (h : o.Within o') (hok : parse o src = .ok d) : parse o' src = .ok d := by
  rw [parse] at hok ⊢
  rcases hrun : (Token.scan src).foldlM (Builder.take o src) {} with e | b
  · rw [hrun] at hok
    contradiction
  · rw [hrun] at hok
    rw [foldlM_ok (fun _ _ _ => Builder.take_ok h) hrun, hok]

/-- **The options do not decide what a text is read as.** -/
theorem eq_of_parse (h : parse o src = .ok d) (h' : parse o' src = .ok d') : d = d' := by
  have hleft := parse_ok (o.within_join_left o') h
  have hright := parse_ok (o.within_join_right o') h'
  exact Except.ok.inj (hleft.symm.trans hright)

/-- **A text that is read as a document is read as the same one with more void elements and a larger
limit of depth.** -/
theorem parse_mono {void void' : NameSet} {limit limit' : Int}
    (hvoid : ∀ name ∈ void, name ∈ void') (hlimit : 1 ≤ limit) (hle : limit ≤ limit')
    (h : parse ⟨void, ParseOptions.depthOf limit⟩ src = .ok d) :
    parse ⟨void', ParseOptions.depthOf limit'⟩ src = .ok d :=
  parse_ok ⟨hvoid, ParseOptions.depthOf_le hlimit hle⟩ h

/-- A void element ends with the one around it, and the depth allowed is just enough. -/
theorem parse_mono_unclosed :
    parse ⟨Vocabulary.setOf ["br", "p"], ParseOptions.depthOf 3⟩ (Bytes.utf8 "<p>x<br>y</p><br>")
      = .ok [.element (Bytes.utf8 "p") [] [.text (Bytes.utf8 "x"),
          .element (Bytes.utf8 "br") [] [.text (Bytes.utf8 "y")] false] false,
        .element (Bytes.utf8 "br") [] [] false] := by
  have h : parse ⟨Vocabulary.setOf ["br"], ParseOptions.depthOf 2⟩ (Bytes.utf8 "<p>x<br>y</p><br>")
      = .ok [.element (Bytes.utf8 "p") [] [.text (Bytes.utf8 "x"),
          .element (Bytes.utf8 "br") [] [.text (Bytes.utf8 "y")] false] false,
        .element (Bytes.utf8 "br") [] [] false] := by
    decide +kernel
  exact parse_mono (by simp [Vocabulary.setOf]) (by decide) (by decide) h

end Document

end LayoutMarkup

import LayoutMarkup.Proofs.Parsing

/-!
# Proofs/Reading — reading a document step by step

The scanner and the builder go through a text together.  `Builder.Reached` says which states they
come to, and two things hold in every one of them: the cursor stands in the text, and the builder is
inside a tag just if the scanner is (`Reached.ahead`, `Reached.agrees`).  So no token comes where
the builder has no use for it, and there are four reasons to refuse a text (`Builder.Refused`).

`Document.parse_eq_error_iff`: a text is refused exactly if one of them holds in some state that is
reached.
-/

namespace LayoutMarkup

/-! ## Places in a text -/

namespace Cursor.Ahead

variable {src : Bytes} {c : Cursor}

/-- The cursor stands before what is left of the text. -/
theorem drop_pos (h : (start src).Ahead c) : src.drop c.pos = c.rest := by
  obtain ⟨s, hrest, hpos⟩ := h
  obtain rfl : src = s ++ c.rest := hrest
  rw [hpos, start, Nat.zero_add, List.drop_left]

end Cursor.Ahead

/-- A start tag with the name begins at the offset. -/
def Bytes.OpensAt (src : Bytes) (pos : Nat) (name : Bytes) : Prop :=
  ∃ rest : Bytes, src.drop pos = Bytes.utf8 "<" ++ name ++ rest ∧ name.IsName ∧
    rest.Stops isNamePart

namespace Builder

variable {o : ParseOptions} {src : Bytes} {m m' : Token.Mode} {c : Cursor} {b : Builder} {t : Token}
  {e : ParseError}

/-! ## States that are reached -/

/-- The states that the scanner and the builder come to. -/
inductive Reached (o : ParseOptions) (src : Bytes) : Token.Mode → Cursor → Builder → Prop
  | start : Reached o src .content (.start src) {}
  | step {m m' : Token.Mode} {c c' : Cursor} {b b' : Builder} {t : Token}
      (h : Reached o src m c b) (hstep : Token.step m c = .emit t m' c')
      (htake : take o src b t = .ok b') : Reached o src m' c' b'

/-- The builder has a start tag begun just if the scanner is in one, and it is the same. -/
inductive Agrees (src : Bytes) : Token.Mode → Option Draft → Prop
  | content : Agrees src .content none
  | tag {d : Draft} (hkey : d.key = none) (hopen : src.OpensAt d.offset d.name) :
      Agrees src (.tag d.offset) (some d)
  | value {d : Draft} {key : Bytes} (hkey : d.key = some key)
      (hopen : src.OpensAt d.offset d.name) : Agrees src (.value d.offset) (some d)

theorem Reached.ahead (h : Reached o src m c b) : (Cursor.start src).Ahead c := by
  induction h with
  | start => exact .refl _
  | step _ hstep _ ih =>
    obtain ⟨s, hrest, hpos, -⟩ := Token.step_eq_emit_iff.mp hstep
    exact ih.trans ⟨s, hrest, hpos⟩

/-- What is left to read from a state that is reached decides how the whole ends. -/
theorem Reached.run_eq (h : Reached o src m c b) :
    run o src .content (.start src) {} = run o src m c b := by
  induction h with
  | start => rfl
  | step _ hstep htake ih =>
    rw [ih, run_of_emit hstep, htake]
    rfl

/-! ## Reasons to refuse a text -/

/-- Why a text is refused in a state. -/
inductive Refused (o : ParseOptions) (src : Bytes) :
    Token.Mode → Cursor → Builder → ParseError → Prop
  /-- The scanner finds a fault. -/
  | fault {m : Token.Mode} {c : Cursor} {b : Builder} {t : Token} {f : Fault}
      (hstep : Token.step m c = .halt t) (hkind : t.kind = .fault f) :
      Refused o src m c b (failure src b.stack t.pos 1 f)
  /-- The text ends with an element open that is not void. -/
  | unclosed {pos : Nat} {b : Builder} {e : OpenElement} {stack : List OpenElement}
      (hclose : closeAll o.void b.nodes b.stack = .error (e, stack)) :
      Refused o src .content ⟨pos, []⟩ b (failure src (e :: stack) pos 0
        (.unclosed e.tag.name (Span.locate src e.offset 0).line))
  /-- A closing tag meets an element of another name that is not void, or none at all. -/
  | mismatchedClose {pos : Nat} {name w rest : Bytes} {b : Builder} {stack : List OpenElement}
      (hname : name.IsName) (hw : ∀ x ∈ w, Bytes.isBlank x = true)
      (hclose : closeTo o.void name b.nodes b.stack = .error stack) :
      Refused o src .content ⟨pos, Bytes.utf8 "</" ++ name ++ w ++ Bytes.utf8 ">" ++ rest⟩ b
        (failure src stack pos (name.length + 3)
          (.mismatchedClose name (stack.head?.map (·.tag.name))))
  /-- A start tag ends with as many elements open as are allowed. -/
  | tooDeep {pos : Nat} {w rest : Bytes} {b : Builder} {d : Draft} (hdraft : b.draft = some d)
      (hkey : d.key = none) (hw : ∀ x ∈ w, Bytes.isBlank x = true)
      (hfull : o.maxDepth ≤ b.stack.length) :
      Refused o src (.tag d.offset) ⟨pos, w ++ Bytes.utf8 ">" ++ rest⟩ b
        (failure src b.stack d.offset (d.name.length + 1) (.tooDeep o.maxDepth))

/-- **A token that is read is taken, and the builder stays with the scanner, or else there is a
reason to refuse the text.**  Only a closing tag and the end of a start tag can be such a reason. -/
theorem Agrees.take_cases {pos : Nat} {s rest : Bytes} (h : Agrees src m b.draft)
    (hc : (Cursor.start src).Ahead ⟨pos, s ++ rest⟩) (hreads : Token.Reads pos m s rest t m') :
    (∃ b', take o src b t = .ok b' ∧ Agrees src m' b'.draft) ∨
      ∃ e, take o src b t = .error e ∧ Refused o src m ⟨pos, s ++ rest⟩ b e := by
  obtain ⟨nodes, stack, draft⟩ := b
  cases hreads with
  | text hne hraw hstop =>
    obtain _ | _ | _ := h
    exact .inl ⟨_, rfl, .content⟩
  | comment hbody =>
    obtain _ | _ | _ := h
    exact .inl ⟨_, rfl, .content⟩
  | @closeTag name _ _ hname hw =>
    obtain _ | _ | _ := h
    rcases hclose : closeTo o.void name nodes stack with stack' | ⟨nodes', stack'⟩
    · refine .inr ⟨_, ?_, .mismatchedClose hname hw hclose⟩
      simp only [take, takeInContent, takeCloseTag, hclose, Nat.add_sub_cancel]
    · refine .inl ⟨⟨nodes', stack', none⟩, ?_, .content⟩
      simp only [take, takeInContent, takeCloseTag, hclose]
  | @openTag name _ hname hstop =>
    obtain _ | _ | _ := h
    have hopen : src.OpensAt pos name := ⟨rest, hc.drop_pos, hname, hstop⟩
    exact .inl ⟨_, rfl, .tag (d := ⟨name, pos, [], none⟩) rfl hopen⟩
  | @key _ _ name _ hw hname hstop =>
    obtain _ | @⟨d, hkey, hopen⟩ | _ := h
    refine .inl ⟨⟨nodes, stack, some { d with key := some name }⟩, ?_,
      .value (d := { d with key := some name }) rfl hopen⟩
    simp only [take, takeInTag, hkey]
  | tagEnd hw =>
    obtain _ | @⟨d, hkey, hopen⟩ | _ := h
    by_cases hroom : stack.length < o.maxDepth
    · refine .inl ⟨⟨[], ⟨⟨d.name, d.attributes.reverse⟩, d.offset, nodes⟩ :: stack, none⟩, ?_,
        .content⟩
      simp only [take, takeInTag, hkey, takeTagEnd, if_pos hroom]
    · refine .inr ⟨_, ?_, .tooDeep rfl hkey hw (Nat.le_of_not_lt hroom)⟩
      simp only [take, takeInTag, hkey, takeTagEnd, if_neg hroom]
  | selfClose hw =>
    obtain _ | @⟨d, hkey, hopen⟩ | _ := h
    refine .inl ⟨⟨.element d.name d.attributes.reverse [] true :: nodes, stack, none⟩, ?_, .content⟩
    simp only [take, takeInTag, hkey]
  | @value _ _ _ value _ hw hw' hvalue =>
    obtain _ | _ | @⟨d, key, hkey, hopen⟩ := h
    refine .inl ⟨⟨nodes, stack, some ⟨d.name, d.offset, ⟨key, value⟩ :: d.attributes, none⟩⟩, ?_,
      .tag (d := ⟨d.name, d.offset, _, none⟩) rfl hopen⟩
    simp only [take, takeInTag, hkey]

/-- **The scanner and the builder agree on where they are.** -/
theorem Reached.agrees (h : Reached o src m c b) : Agrees src m b.draft := by
  induction h with
  | start => exact .content
  | @step _ _ c _ _ _ _ h hstep htake ih =>
    obtain ⟨s, hrest, -, hreads⟩ := Token.step_eq_emit_iff.mp hstep
    obtain ⟨b', hok, hagrees⟩ | ⟨e, herror, -⟩ := ih.take_cases (hrest ▸ h.ahead) hreads
    · rw [htake] at hok
      obtain rfl := Except.ok.inj hok
      exact hagrees
    · rw [htake] at herror
      contradiction

/-- A text is refused at the token that halts the scanner for one of the reasons. -/
theorem Agrees.refused_of_halt (h : Agrees src m b.draft) (hstep : Token.step m c = .halt t)
    (htake : take o src b t = .error e) : Refused o src m c b e := by
  obtain ⟨rfl, hend, rfl⟩ | ⟨f, hf⟩ := Token.finish_or_fault_of_halt hstep
  · obtain ⟨nodes, stack, draft⟩ := b
    obtain ⟨pos, rest⟩ := c
    obtain rfl : rest = [] := hend
    obtain _ | _ | _ := h
    simp only [take, takeInContent, takeFinish] at htake
    split at htake
    · contradiction
    · next hclose =>
      obtain rfl := Except.error.inj htake
      exact .unclosed hclose
  · rw [take_fault hf] at htake
    obtain rfl := Except.error.inj htake
    exact .fault hstep hf

/-- The scanner and the builder agree on where they are, so no text is refused for a token that is
out of place. -/
theorem Refused.ne_unexpectedToken (h : Refused o src m c b e) (insideTag : Bool) (text : Bytes) :
    e.fault ≠ .unexpectedToken insideTag text := by
  cases h with
  | fault hstep hkind =>
    cases Token.halts_of_step hstep with
    | finish => contradiction
    | _ =>
      obtain rfl := Token.Kind.fault.inj hkind
      simp [failure]
  | _ => simp [failure]

/-- A run that fails comes to a state where the text is refused. -/
theorem Reached.exists_refused {m : Token.Mode} {c : Cursor} {b : Builder}
    (h : Reached o src m c b) (hrun : run o src m c b = .error e) :
    ∃ m' c' b', Reached o src m' c' b' ∧ Refused o src m' c' b' e := by
  rcases hstep : Token.step m c with ⟨t, m', c'⟩ | t
  · have hlt := Token.length_lt_of_step hstep
    rw [run_of_emit hstep] at hrun
    obtain htake | ⟨b', htake, hrun⟩ := Except.bind_eq_error_iff.mp hrun
    · obtain ⟨pos, rest⟩ := c
      obtain ⟨s, hrest, -, hreads⟩ := Token.step_eq_emit_iff.mp hstep
      obtain rfl : rest = _ := hrest
      obtain ⟨b', hok, -⟩ | ⟨e, herror, hrefused⟩ := h.agrees.take_cases h.ahead hreads
      · rw [htake] at hok
        contradiction
      · rw [htake] at herror
        obtain rfl := Except.error.inj herror
        exact ⟨_, _, _, h, hrefused⟩
    · exact exists_refused (h.step hstep htake) hrun
  · rw [run_of_halt hstep] at hrun
    exact ⟨_, _, _, h, h.agrees.refused_of_halt hstep hrun⟩
termination_by c.rest.length

/-- Where there is a reason to refuse a text, it is refused for it. -/
theorem Refused.run_eq (h : Refused o src m c b e) (hagrees : Agrees src m b.draft) :
    run o src m c b = .error e := by
  obtain ⟨nodes, stack, draft⟩ := b
  cases h with
  | fault hstep hkind => rw [run_of_halt hstep, take_fault hkind]
  | @unclosed pos _ _ _ hclose =>
    obtain _ | _ | _ := hagrees
    have hhalt : Token.step .content ⟨pos, []⟩ = .halt ⟨.finish, [], pos⟩ := rfl
    simp only at hclose
    rw [run_of_halt hhalt]
    simp only [take, takeInContent, takeFinish, hclose]
  | mismatchedClose hname hw hclose =>
    obtain _ | _ | _ := hagrees
    simp only at hclose
    rw [run_of_emit (Token.step_of_reads (.closeTag hname hw))]
    simp only [take, takeInContent, takeCloseTag, hclose]
    rfl
  | tooDeep hdraft hkey hw hfull =>
    obtain rfl : draft = _ := hdraft
    rw [run_of_emit (Token.step_of_reads (.tagEnd hw))]
    simp only [take, takeInTag, hkey, takeTagEnd, if_neg (Nat.not_lt_of_le hfull)]
    rfl

end Builder

/-- **A text is refused exactly if a state is reached with a reason to refuse it.** -/
theorem Document.parse_eq_error_iff {o : ParseOptions} {src : Bytes} {e : ParseError} :
    parse o src = .error e ↔
      ∃ m c b, Builder.Reached o src m c b ∧ Builder.Refused o src m c b e := by
  have hparse : parse o src = .error e ↔ Builder.run o src .content (.start src) {} = .error e := by
    rw [parse_eq_run, Cursor.start, Except.map_eq_error_iff]
  rw [hparse]
  constructor
  · exact fun h => Builder.Reached.start.exists_refused h
  · rintro ⟨m, c, b, hreached, hrefused⟩
    rw [hreached.run_eq]
    exact hrefused.run_eq hreached.agrees

end LayoutMarkup

import LayoutMarkup.Proofs.Options
import LayoutMarkup.Proofs.Places

/-!
# Proofs/Prefixes — errors of structure are decided by what has been read

More text behind a document can change its last token: text and names go on, a tag or a comment is
completed.  It changes no token that another one follows (`Token.Reads.append`), so all states but
the last one are reached as before (`Builder.Reached.append`).

A closing tag that does not match and an element that is too deep are found at a token that is
complete.  `Document.parse_append`: such an error stays what it is, whatever comes behind.
-/

namespace LayoutMarkup

/-! ## Tokens with more text behind -/

/-- Where a word stops before an ASCII character, it stops with more text behind. -/
theorem Bytes.Stops.append {p : Char → Bool} {s : Bytes} (h : s.Stops p)
    (hascii : ∃ b ∈ s.head?, b < 0x80) (u : Bytes) : (s ++ u).Stops p := by
  obtain ⟨b, hb, hlt⟩ := hascii
  obtain ⟨r, rfl⟩ := List.head?_eq_some_iff.mp hb
  exact stops_cons hlt (h _ r (by rw [encode_byte hlt]; rfl)) (r ++ u)

namespace Token

variable {pos pos' : Nat} {m m' m'' : Mode} {s s' rest : Bytes} {t t' : Token}

theorem Reads.ne_nil (h : Reads pos m s rest t m') : s ≠ [] := by
  rintro rfl
  exact Nat.lt_irrefl _ (length_lt_of_step (step_of_reads h))

theorem ascii_blanks_append {w r : Bytes} (hw : ∀ b ∈ w, Bytes.isBlank b = true)
    (hr : ∃ b ∈ r.head?, b < 0x80) : ∃ b ∈ (w ++ r).head?, b < 0x80 := by
  rcases w with _ | ⟨b, w⟩
  · exact hr
  · exact ⟨b, rfl, Bytes.lt_of_isBlank (hw b List.mem_cons_self)⟩

/-- Inside a tag a token begins with an ASCII character, but for a name, and that goes on with the
name before it. -/
theorem Reads.ascii (h : Reads pos m s rest t m') (hm : m ≠ .content)
    (hstop : (s ++ rest).Stops isNamePart) : ∃ b ∈ (s ++ rest).head?, b < 0x80 := by
  cases h with
  | text | comment | closeTag | openTag => exact absurd rfl hm
  | @key _ w name _ hw hname _ =>
    rw [List.append_assoc] at hstop ⊢
    rcases w with _ | ⟨b, w⟩
    · exact absurd hstop (hname.not_stops rest)
    · exact ⟨b, rfl, Bytes.lt_of_isBlank (hw b List.mem_cons_self)⟩
  | tagEnd hw =>
    rw [List.append_assoc]
    exact ascii_blanks_append hw ⟨_, rfl, by decide⟩
  | selfClose hw =>
    rw [List.append_assoc]
    exact ascii_blanks_append hw ⟨_, rfl, by decide⟩
  | value hw hw' hvalue =>
    simp only [List.append_assoc]
    exact ascii_blanks_append hw ⟨_, rfl, by decide⟩

/-- **A token that another one follows is read with more text behind.** -/
theorem Reads.append (h : Reads pos m s (s' ++ rest) t m') (h' : Reads pos' m' s' rest t' m'')
    (u : Bytes) : Reads pos m s (s' ++ rest ++ u) t m' := by
  cases h with
  | text hne hraw hrest =>
    refine .text hne hraw ?_
    rwa [List.head?_append_of_ne_nil _ (by simp [h'.ne_nil])]
  | comment hbody => exact .comment hbody
  | closeTag hname hw => exact .closeTag hname hw
  | openTag hname hrest => exact .openTag hname (hrest.append (h'.ascii (by simp) hrest) u)
  | key hw hname hrest => exact .key hw hname (hrest.append (h'.ascii (by simp) hrest) u)
  | tagEnd hw => exact .tagEnd hw
  | selfClose hw => exact .selfClose hw
  | value hw hw' hvalue => exact .value hw hw' hvalue

theorem step_append {c c' c'' : Cursor} (h : step m c = .emit t m' c')
    (h' : step m' c' = .emit t' m'' c'') (u : Bytes) :
    step m ⟨c.pos, c.rest ++ u⟩ = .emit t m' ⟨c'.pos, c'.rest ++ u⟩ := by
  obtain ⟨s, hrest, hpos, hreads⟩ := step_eq_emit_iff.mp h
  obtain ⟨s', hrest', -, hreads'⟩ := step_eq_emit_iff.mp h'
  refine step_eq_emit_iff.mpr ⟨s, ?_, hpos, ?_⟩
  · rw [hrest, List.append_assoc]
  · rw [hrest'] at hreads ⊢
    exact hreads.append hreads' u

/-- What a scanner stops for is no error of structure. -/
theorem not_structural_of_halt {c : Cursor} {f : Fault} (h : step m c = .halt t)
    (hkind : t.kind = .fault f) : ¬ (f.kind = .mismatchedClose ∨ f.kind = .tooDeep) := by
  cases halts_of_step h with
  | finish => contradiction
  | _ =>
    obtain rfl := Kind.fault.inj hkind
    simp [Fault.kind]

end Token

/-! ## Errors with more text behind -/

/-- A stretch of the text keeps its place. -/
theorem Span.locate_append {src : Bytes} {offset length : Nat}
    (h : offset + length ≤ src.length) (u : Bytes) :
    Span.locate (src ++ u) offset length = Span.locate src offset length := by
  have hle : offset ≤ src.length := by omega
  simp only [Span.locate, List.take_append_of_le_length hle, List.length_append, Span.mk.injEq,
    true_and]
  omega

namespace Builder

variable {o : ParseOptions} {src : Bytes} {m m' : Token.Mode} {c c' : Cursor} {b : Builder}
  {t : Token} {e : ParseError}

/-- **A state that another token follows is reached with more text behind.** -/
theorem Reached.append (h : Reached o src m c b) (hnext : Token.step m c = .emit t m' c')
    (u : Bytes) : Reached o (src ++ u) m ⟨c.pos, c.rest ++ u⟩ b := by
  induction h generalizing t m' c' with
  | start => exact .start
  | step h hstep htake ih =>
    exact (ih hstep).step (Token.step_append hstep hnext u) (take_ok (.refl o) htake)

/-- An error of structure is found at a token, and with more text behind at the same one. -/
theorem Refused.append (h : Refused o src m c b e)
    (hkind : e.fault.kind = .mismatchedClose ∨ e.fault.kind = .tooDeep) (u : Bytes) :
    (∃ t m' c', Token.step m c = .emit t m' c') ∧
      Refused o (src ++ u) m ⟨c.pos, c.rest ++ u⟩ b { e with source := src ++ u } := by
  cases h with
  | fault hstep hfault => exact absurd hkind (Token.not_structural_of_halt hstep hfault)
  | unclosed hclose => simp [failure, Fault.kind] at hkind
  | @mismatchedClose pos name w rest _ stack hname hw hclose =>
    refine ⟨⟨_, _, _, Token.step_of_reads (.closeTag hname hw)⟩, ?_⟩
    have hmore :=
      @Refused.mismatchedClose o (src ++ u) pos name w (rest ++ u) b stack hname hw hclose
    rwa [← List.append_assoc] at hmore
  | @tooDeep pos w rest _ d hdraft hkey hw hfull =>
    refine ⟨⟨_, _, _, Token.step_of_reads (.tagEnd hw)⟩, ?_⟩
    have hmore := @Refused.tooDeep o (src ++ u) pos w (rest ++ u) b d hdraft hkey hw hfull
    rwa [← List.append_assoc] at hmore

end Builder

/-- **Errors of structure are decided by what has been read.**  A closing tag that does not match
and an element that is too deep are the same errors, at the same place and in the same elements,
whatever comes behind. -/
theorem Document.parse_append {o : ParseOptions} {src : Bytes} {e : ParseError}
    (h : parse o src = .error e)
    (hkind : e.fault.kind = .mismatchedClose ∨ e.fault.kind = .tooDeep) (u : Bytes) :
    ∃ e', parse o (src ++ u) = .error e' ∧ e'.fault.kind = e.fault.kind ∧
      e'.notice.message = e.notice.message ∧ e'.span = e.span ∧ e'.notice.path = e.notice.path ∧
      e'.context = e.context := by
  obtain ⟨m, c, b, hreached, hrefused⟩ := parse_eq_error_iff.mp h
  obtain ⟨⟨t, m', c', hstep⟩, hrefused'⟩ := hrefused.append hkind u
  obtain ⟨rfl, hwithin⟩ := within_of_parse h
  have hparse := parse_eq_error_iff.mpr ⟨_, _, _, hreached.append hstep u, hrefused'⟩
  exact ⟨_, hparse, rfl, rfl, Span.locate_append hwithin u, rfl, rfl⟩

/-- A mismatch behind a void element that is still open; what comes behind completes a character and
leaves a tag open. -/
theorem Document.parse_append_halved :
    ∃ src e, parse {} src = .error e ∧ e.fault.kind = .mismatchedClose ∧
      ∃ e', parse {} (src ++ ([0xA9] ++ Bytes.utf8 "<r")) = .error e' ∧
        e'.fault.kind = e.fault.kind ∧
        e'.notice.message = e.notice.message ∧ e'.span = e.span ∧
        e'.notice.path = e.notice.path ∧ e'.context = e.context := by
  have h : parse {} (Bytes.utf8 "<p k=\"v\">\n<br></q>" ++ [0xC3]) =
      .error ⟨.mismatchedClose (Bytes.utf8 "q") (some (Bytes.utf8 "p")), 14, 4,
        [⟨Bytes.utf8 "p", [⟨Bytes.utf8 "k", Bytes.utf8 "v"⟩]⟩],
        Bytes.utf8 "<p k=\"v\">\n<br></q>" ++ [0xC3]⟩ := by
    decide +kernel
  exact ⟨_, _, h, rfl, parse_append h (.inl rfl) _⟩

end LayoutMarkup

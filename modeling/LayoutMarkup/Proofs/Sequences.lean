import LayoutMarkup.Proofs.Reading

/-!
# Proofs/Sequences — the tokens of a text as the builder gets them

    (text | comment | closeTag | tagName (key value)* (tagEnd | selfClose))*

`Token.Sentence` are the sequences of this form.  The tokens of a text are a sentence up to the end
of the text, or the beginning of one up to a fault, and each of them is a stretch of the text,
behind those before it (`Token.Sequence`).  That holds because a step of the scanner puts in front
what the mode it is in calls for (`Continues.cons`), and covers no more than it passes
(`Reads.covers`).

So a builder is never given a token that it has no use for, nor left without one
(`Builder.Served`).  What it ends is open: a closing tag takes off the stack the element it names,
with the void ones inside it, and the end of the text takes off all that are left
(`Builder.Moves`).
-/

namespace LayoutMarkup

namespace Token

variable {m m' : Mode} {c c' : Cursor} {t : Token} {pos : Nat} {s rest : Bytes} {kinds : List Kind}

/-- What holds where the scanner stops, and is kept by each token before, holds of all tokens. -/
theorem scanFrom_induction {P : Mode → Cursor → List Token → Prop}
    (halt : ∀ {m c t}, step m c = .halt t → P m c [t])
    (emit : ∀ {m c t m' c'}, step m c = .emit t m' c' → P m' c' (scanFrom m' c') →
      P m c (t :: scanFrom m' c')) (m : Mode) (c : Cursor) : P m c (scanFrom m c) := by
  rcases hstep : step m c with ⟨t, m', c'⟩ | t
  · have hlt := length_lt_of_step hstep
    rw [scanFrom_of_emit hstep]
    exact emit hstep (scanFrom_induction halt emit m' c')
  · rw [scanFrom_of_halt hstep]
    exact halt hstep
termination_by c.rest.length

/-! ## Sentences -/

/-- The kinds of tokens that make up a document. -/
inductive Sentence : List Kind → Prop
  | nil : Sentence []
  | text {kinds : List Kind} (h : Sentence kinds) : Sentence (.text :: kinds)
  | comment {kinds : List Kind} (h : Sentence kinds) : Sentence (.comment :: kinds)
  | closeTag {kinds : List Kind} (h : Sentence kinds) : Sentence (.closeTag :: kinds)
  | startTag {kinds : List Kind} {mark : Kind} (n : Nat)
      (hmark : mark = .tagEnd ∨ mark = .selfClose) (h : Sentence kinds) :
      Sentence (.tagName :: ((List.replicate n [.key, .value]).flatten ++ mark :: kinds))

/-- The kinds complete a sentence, given the mode of the scanner behind the tokens so far. -/
def Continues : Mode → List Kind → Prop
  | .content, kinds => Sentence kinds
  | .tag _, kinds => Sentence (.tagName :: kinds)
  | .value _, kinds => Sentence (.tagName :: .key :: kinds)

/-- One more attribute in a start tag. -/
theorem Sentence.attribute (h : Sentence (.tagName :: kinds)) :
    Sentence (.tagName :: .key :: .value :: kinds) := by
  cases h with
  | startTag n hmark h => exact .startTag (n + 1) hmark h

/-- **A step puts in front what its mode calls for.** -/
theorem Continues.cons (hreads : Reads pos m s rest t m') (h : Continues m' kinds) :
    Continues m (t.kind :: kinds) := by
  cases hreads with
  | text => exact Sentence.text h
  | comment => exact Sentence.comment h
  | closeTag => exact Sentence.closeTag h
  | openTag | key => exact h
  | tagEnd => exact Sentence.startTag 0 (.inl rfl) h
  | selfClose => exact Sentence.startTag 0 (.inr rfl) h
  | value => exact Sentence.attribute h

/-- Whatever the mode, there is a way to go on. -/
theorem exists_continues (m : Mode) : ∃ kinds, Continues m kinds := by
  rcases m with _ | start | start
  · exact ⟨[], .nil⟩
  · exact ⟨[.tagEnd], .startTag 0 (.inl rfl) .nil⟩
  · exact ⟨[.value, .tagEnd], .startTag 1 (.inl rfl) .nil⟩

/-- Does nothing come behind the token? -/
def isLast (t : Token) : Bool :=
  match t.kind with
  | .finish | .fault _ => true
  | _ => false

/-- Is the token a fault? -/
def isFault (t : Token) : Bool :=
  match t.kind with
  | .fault _ => true
  | _ => false

theorem Reads.isLast_eq (h : Reads pos m s rest t m') : t.isLast = false := by
  cases h <;> rfl

theorem isLast_of_halt (h : step m c = .halt t) : t.isLast = true := by
  obtain ⟨-, -, rfl⟩ | ⟨f, hf⟩ := finish_or_fault_of_halt h
  · rfl
  · rw [isLast, hf]

/-- **The tokens from a cursor on go on with a sentence**, up to its end or up to a fault. -/
theorem exists_of_scanFrom (m : Mode) (c : Cursor) :
    ∃ tokens last, scanFrom m c = tokens ++ [last] ∧ (∀ t ∈ tokens, t.isLast = false) ∧
      last.isLast = true ∧ (last.kind = .finish → Continues m (tokens.map (·.kind))) ∧
      ∃ more, Continues m (tokens.map (·.kind) ++ more) := by
  refine scanFrom_induction (P := fun m _ all => ∃ tokens last, all = tokens ++ [last] ∧
    (∀ t ∈ tokens, t.isLast = false) ∧ last.isLast = true ∧
    (last.kind = .finish → Continues m (tokens.map (·.kind))) ∧
    ∃ more, Continues m (tokens.map (·.kind) ++ more)) ?_ ?_ m c
  · intro m c t hstep
    refine ⟨[], t, rfl, by simp, isLast_of_halt hstep, fun hkind => ?_, exists_continues m⟩
    obtain ⟨rfl, -⟩ | ⟨f, hf⟩ := finish_or_fault_of_halt hstep
    · exact Sentence.nil
    · rw [hf] at hkind
      contradiction
  · rintro m c t m' c' hstep ⟨tokens, last, hall, hnot, hlast, hfinish, more, hmore⟩
    obtain ⟨s, -, -, hreads⟩ := step_eq_emit_iff.mp hstep
    refine ⟨t :: tokens, last, by rw [hall]; rfl, ?_, hlast, fun hkind => ?_, more, ?_⟩
    · exact List.forall_mem_cons.mpr ⟨hreads.isLast_eq, hnot⟩
    · exact Continues.cons hreads (hfinish hkind)
    · exact Continues.cons hreads hmore

/-! ## Stretches of the text -/

/-- The token is the stretch of the text at its offset. -/
def StandsIn (src : Bytes) (t : Token) : Prop :=
  ∃ before after, src = before ++ t.text ++ after ∧ t.pos = before.length

/-- **A token is a stretch of what is passed**, and does not begin at its end. -/
theorem Reads.covers (h : Reads pos m s rest t m') :
    ∃ before after, s = before ++ t.text ++ after ∧ t.pos = pos + before.length ∧
      before.length < s.length := by
  cases h with
  | text hne => exact ⟨[], [], by simp, rfl, List.length_pos_iff.mpr hne⟩
  | @comment body =>
    exact ⟨Bytes.utf8 "<!--", Bytes.utf8 "-->", rfl, rfl, by simp [utf8_closeComment]⟩
  | @closeTag name w _ hname hw =>
    have hne := List.length_pos_iff.mpr (Bytes.IsWord.ne_nil hname)
    refine ⟨Bytes.utf8 "</", w ++ Bytes.utf8 ">", by simp, rfl, ?_⟩
    simp only [List.length_append]
    omega
  | @openTag name _ hname hrest =>
    have hne := List.length_pos_iff.mpr (Bytes.IsWord.ne_nil hname)
    refine ⟨Bytes.utf8 "<", [], by simp, rfl, ?_⟩
    simp only [List.length_append]
    omega
  | @key _ w name _ hw hname hrest =>
    have hne := List.length_pos_iff.mpr (Bytes.IsWord.ne_nil hname)
    refine ⟨w, [], by simp, rfl, ?_⟩
    simp only [List.length_append]
    omega
  | @tagEnd _ w => exact ⟨w, [], by simp, rfl, by simp [utf8_close]⟩
  | @selfClose _ w => exact ⟨w, [], by simp, rfl, by simp [utf8_selfClose]⟩
  | @value _ w w' value =>
    refine ⟨w ++ Bytes.utf8 "=" ++ w' ++ Bytes.utf8 "\"", Bytes.utf8 "\"", by simp, ?_, ?_⟩
    · simp only [utf8_equals, utf8_quote, List.length_append, List.length_singleton]
      omega
    · simp [utf8_quote]

/-- What comes first lies before, neither reaching into what comes behind nor beginning with it. -/
def Before (t u : Token) : Prop := t.pos + t.text.length ≤ u.pos ∧ t.pos < u.pos

/-- **The tokens from a cursor on are stretches of the text behind it**, one behind the other. -/
theorem standsIn_of_scanFrom {src : Bytes} (m : Mode) (c : Cursor)
    (hc : (Cursor.start src).Ahead c) :
    (∀ t ∈ scanFrom m c, t.isFault = false → StandsIn src t ∧ c.pos ≤ t.pos) ∧
      (scanFrom m c).Pairwise fun t u => u.isFault = false → Before t u := by
  revert hc
  refine scanFrom_induction (P := fun _ c all => (Cursor.start src).Ahead c →
    (∀ t ∈ all, t.isFault = false → StandsIn src t ∧ c.pos ≤ t.pos) ∧
      all.Pairwise fun t u => u.isFault = false → Before t u) ?_ ?_ m c
  · rintro m c t hstep ⟨s, hsrc, hpos⟩
    refine ⟨fun u hu hfault => ?_, List.pairwise_singleton _ _⟩
    obtain rfl := List.mem_singleton.mp hu
    obtain ⟨-, hend, rfl⟩ | ⟨f, hf⟩ := finish_or_fault_of_halt hstep
    · rw [hend] at hsrc
      exact ⟨⟨s, [], by simpa [Cursor.start] using hsrc, by simp [hpos, Cursor.start]⟩,
        Nat.le_refl _⟩
    · simp [isFault, hf] at hfault
  · rintro m c t m' c' hstep ih hc
    obtain ⟨s, hrest, hpos, hreads⟩ := step_eq_emit_iff.mp hstep
    obtain ⟨hstands, hpairs⟩ := ih (hc.trans ⟨s, hrest, hpos⟩)
    obtain ⟨before, after, rfl, htpos, hlt⟩ := hreads.covers
    rw [List.length_append, List.length_append] at hpos hlt
    refine ⟨List.forall_mem_cons.mpr ⟨fun _ => ⟨?_, by omega⟩, fun u hu hfault => ?_⟩,
      List.pairwise_cons.mpr ⟨fun u hu hfault => ?_, hpairs⟩⟩
    · obtain ⟨front, hsrc, hcpos⟩ := hc
      refine ⟨front ++ before, after ++ c'.rest, ?_, ?_⟩
      · simpa [hrest, Cursor.start] using hsrc
      · simp [htpos, hcpos, Cursor.start]
    · obtain ⟨hin, hle⟩ := hstands u hu hfault
      exact ⟨hin, by omega⟩
    · obtain ⟨-, hle⟩ := hstands u hu hfault
      exact ⟨by omega, by omega⟩

/-! ## Keys and values -/

theorem exists_of_scanFrom_value (start : Nat) (c : Cursor) :
    ∃ v tokens, scanFrom (.value start) c = v :: tokens ∧ (v.kind = .value ∨ v.isFault = true) := by
  rcases hstep : step (.value start) c with ⟨t, m', c'⟩ | t
  · obtain ⟨s, -, -, hreads⟩ := step_eq_emit_iff.mp hstep
    refine ⟨t, _, scanFrom_of_emit hstep, .inl ?_⟩
    cases hreads
    rfl
  · refine ⟨t, [], scanFrom_of_halt hstep, .inr ?_⟩
    obtain ⟨hm, -⟩ | ⟨f, hf⟩ := finish_or_fault_of_halt hstep
    · contradiction
    · rw [isFault, hf]

/-- Behind a key comes its value or a fault. -/
theorem value_of_key {m : Mode} {c : Cursor} {tokens rest : List Token} {k : Token}
    (h : scanFrom m c = tokens ++ k :: rest) (hkey : k.kind = .key) :
    ∃ v more, rest = v :: more ∧ (v.kind = .value ∨ v.isFault = true) := by
  revert tokens
  refine scanFrom_induction (P := fun _ _ all => ∀ {tokens : List Token},
    all = tokens ++ k :: rest →
      ∃ v more, rest = v :: more ∧ (v.kind = .value ∨ v.isFault = true)) ?_ ?_ m c
  · intro m c t hstep tokens h
    have hlast := isLast_of_halt hstep
    rcases tokens with _ | ⟨u, tokens⟩
    · obtain rfl := (List.cons.inj h).1
      rw [isLast, hkey] at hlast
      contradiction
    · simp at h
  · intro m c t m' c' hstep ih tokens h
    rcases tokens with _ | ⟨u, tokens⟩
    · obtain ⟨rfl, rfl⟩ := List.cons.inj h
      obtain ⟨s, -, -, hreads⟩ := step_eq_emit_iff.mp hstep
      cases hreads with
      | key => exact exists_of_scanFrom_value _ _
      | _ => contradiction
    · exact ih (List.cons.inj h).2

/-- The tokens are those of a text: a sentence up to the end of the text, or the beginning of one up
to a fault, and each of them, but for a fault, a stretch of the text behind those before it. -/
structure Sequence (src : Bytes) (all : List Token) : Prop where
  kinds : ∃ tokens last, all = tokens ++ [last] ∧ (∀ t ∈ tokens, t.isLast = false) ∧
    last.isLast = true ∧ (last.kind = .finish → Sentence (tokens.map (·.kind))) ∧
    ∃ more, Sentence (tokens.map (·.kind) ++ more)
  stands : ∀ t ∈ all, t.isFault = false → StandsIn src t
  order : all.Pairwise fun t u => u.isFault = false → Before t u
  value_of_key : ∀ tokens k rest, all = tokens ++ k :: rest → k.kind = .key →
    ∃ v more, rest = v :: more ∧ (v.kind = .value ∨ v.isFault = true)

theorem sequence_scan (src : Bytes) : Sequence src (scan src) where
  kinds := exists_of_scanFrom .content (.start src)
  stands := fun t ht hfault =>
    ((standsIn_of_scanFrom .content (.start src) (.refl _)).1 t ht hfault).1
  order := (standsIn_of_scanFrom .content (.start src) (.refl _)).2
  value_of_key := fun _ _ _ => value_of_key

end Token

/-! ## What the builder is given -/

namespace Builder

variable {o : ParseOptions} {src : Bytes} {b b' : Builder} {t : Token} {e : ParseError}

/-- A closing tag takes off the stack the element it names and the void ones inside it. -/
theorem closeTo_eq_ok {void : NameSet} {name : Bytes} {nodes nodes' : List Node}
    {stack left : List OpenElement} (h : closeTo void name nodes stack = .ok (nodes', left)) :
    ∃ voids e, stack = voids ++ e :: left ∧ e.tag.name = name ∧
      ∀ v ∈ voids, v.tag.name ∈ void ∧ v.tag.name ≠ name := by
  induction stack generalizing nodes with
  | nil => contradiction
  | cons e stack ih =>
    rw [closeTo] at h
    split at h
    · next hname =>
      obtain ⟨-, rfl⟩ := Prod.mk.inj (Except.ok.inj h)
      exact ⟨[], e, rfl, hname, by simp⟩
    · next hname =>
      split at h
      · next hvoid =>
        obtain ⟨voids, e', rfl, hname', hvoids⟩ := ih h
        refine ⟨e :: voids, e', rfl, hname', List.forall_mem_cons.mpr ⟨⟨?_, hname⟩, hvoids⟩⟩
        exact NameSet.has_iff.mp hvoid
      · contradiction

/-- A closing tag that does not match has taken off the stack the void elements before the one it
meets. -/
theorem closeTo_eq_error {void : NameSet} {name : Bytes} {nodes : List Node}
    {stack left : List OpenElement} (h : closeTo void name nodes stack = .error left) :
    ∃ voids, stack = voids ++ left ∧ (∀ v ∈ voids, v.tag.name ∈ void ∧ v.tag.name ≠ name) ∧
      ∀ e ∈ left.head?, e.tag.name ∉ void ∧ e.tag.name ≠ name := by
  induction stack generalizing nodes with
  | nil =>
    obtain rfl := Except.error.inj h
    exact ⟨[], rfl, by simp, by simp⟩
  | cons e stack ih =>
    rw [closeTo] at h
    split at h
    · contradiction
    · next hname =>
      split at h
      · next hvoid =>
        obtain ⟨voids, rfl, hvoids, hhead⟩ := ih h
        refine ⟨e :: voids, rfl, List.forall_mem_cons.mpr ⟨⟨?_, hname⟩, hvoids⟩, hhead⟩
        exact NameSet.has_iff.mp hvoid
      · next hvoid =>
        obtain rfl := Except.error.inj h
        refine ⟨[], rfl, by simp, fun e' he' => ?_⟩
        obtain rfl := Option.some.inj he'
        exact ⟨mt NameSet.has_iff.mpr hvoid, hname⟩

/-- The end of the document has taken off the stack the void elements before the one it meets. -/
theorem closeAll_eq_error {void : NameSet} {nodes : List Node} {stack left : List OpenElement}
    {e : OpenElement} (h : closeAll void nodes stack = .error (e, left)) :
    ∃ voids, stack = voids ++ e :: left ∧ (∀ v ∈ voids, v.tag.name ∈ void) ∧ e.tag.name ∉ void := by
  induction stack generalizing nodes with
  | nil => contradiction
  | cons e' stack ih =>
    rw [closeAll] at h
    split at h
    · next hvoid =>
      obtain ⟨voids, rfl, hvoids, he⟩ := ih h
      exact ⟨e' :: voids, rfl, List.forall_mem_cons.mpr ⟨NameSet.has_iff.mp hvoid, hvoids⟩, he⟩
    · next hvoid =>
      obtain ⟨rfl, rfl⟩ := Prod.mk.inj (Except.error.inj h)
      exact ⟨[], rfl, by simp, mt NameSet.has_iff.mpr hvoid⟩

/-- The end of the document takes off the stack all that is on it, and only void elements are. -/
theorem closeAll_eq_ok {void : NameSet} {nodes nodes' : List Node} {stack : List OpenElement}
    (h : closeAll void nodes stack = .ok nodes') : ∀ v ∈ stack, v.tag.name ∈ void := by
  induction stack generalizing nodes with
  | nil => simp
  | cons e stack ih =>
    rw [closeAll] at h
    split at h
    · next hvoid => exact List.forall_mem_cons.mpr ⟨NameSet.has_iff.mp hvoid, ih h⟩
    · contradiction

/-- The stack that a token leaves when it is taken. -/
inductive Moves (o : ParseOptions) (t : Token) (b : Builder) : List OpenElement → Prop
  /-- Other tokens than these do not touch it. -/
  | stays (hkind : t.kind ≠ .tagEnd ∧ t.kind ≠ .closeTag ∧ t.kind ≠ .finish) : Moves o t b b.stack
  /-- The end of a start tag puts its element on top. -/
  | opens {d : Draft} (hkind : t.kind = .tagEnd) (hdraft : b.draft = some d)
      (hroom : b.stack.length < o.maxDepth) :
      Moves o t b (⟨⟨d.name, d.attributes.reverse⟩, d.offset, b.nodes⟩ :: b.stack)
  /-- A closing tag takes off the element that it names, and the void ones above it. -/
  | closes {voids left : List OpenElement} {e : OpenElement} (hkind : t.kind = .closeTag)
      (hstack : b.stack = voids ++ e :: left) (hname : e.tag.name = t.text)
      (hvoids : ∀ v ∈ voids, v.tag.name ∈ o.void ∧ v.tag.name ≠ t.text) : Moves o t b left
  /-- The end of the text takes off all, and these are void. -/
  | ends (hkind : t.kind = .finish) (hvoids : ∀ v ∈ b.stack, v.tag.name ∈ o.void) : Moves o t b []

/-- The stack that a token leaves when it is refused. -/
inductive Strands (o : ParseOptions) (t : Token) (b : Builder) : List OpenElement → Prop
  /-- Only a closing tag and the end of the text, outside of all tags, touch it. -/
  | stays (h : b.draft.isSome = true ∨ (t.kind ≠ .closeTag ∧ t.kind ≠ .finish)) :
      Strands o t b b.stack
  /-- A closing tag takes off void elements, and meets one that is neither void nor the one that it
  names, or none at all. -/
  | closes {voids left : List OpenElement} (hkind : t.kind = .closeTag)
      (hstack : b.stack = voids ++ left)
      (hvoids : ∀ v ∈ voids, v.tag.name ∈ o.void ∧ v.tag.name ≠ t.text)
      (hhead : ∀ e ∈ left.head?, e.tag.name ∉ o.void ∧ e.tag.name ≠ t.text) : Strands o t b left
  /-- The end of the text takes off void elements, and meets one that is not. -/
  | ends {voids left : List OpenElement} {e : OpenElement} (hkind : t.kind = .finish)
      (hstack : b.stack = voids ++ e :: left) (hvoids : ∀ v ∈ voids, v.tag.name ∈ o.void)
      (hopen : e.tag.name ∉ o.void) : Strands o t b (e :: left)

/-- **A token opens an element, or takes off the stack what is on it**, or else there is an error,
found in elements that were open. -/
theorem take_cases (o : ParseOptions) (src : Bytes) (b : Builder) (t : Token) :
    (∃ b', take o src b t = .ok b' ∧ Moves o t b b'.stack) ∨
      ∃ e left, take o src b t = .error e ∧ e.chain = chain left ∧ Strands o t b left := by
  obtain ⟨kind, text, pos⟩ := t
  obtain ⟨nodes, stack, _ | ⟨name, offset, attributes, _ | key⟩⟩ := b
  · cases kind with
    | text | comment | tagName => exact .inl ⟨_, rfl, .stays (by simp)⟩
    | closeTag =>
      rcases hclose : closeTo o.void text nodes stack with left | ⟨nodes', left⟩
      · obtain ⟨voids, hstack, hvoids, hhead⟩ := closeTo_eq_error hclose
        refine .inr ⟨failure src left (pos - 2) (text.length + 3) (.mismatchedClose text
          (left.head?.map (·.tag.name))), left, ?_, rfl, .closes rfl hstack hvoids hhead⟩
        simp only [take, takeInContent, takeCloseTag, hclose]
      · obtain ⟨voids, e, hstack, hname, hvoids⟩ := closeTo_eq_ok hclose
        refine .inl ⟨⟨nodes', left, none⟩, ?_, .closes rfl hstack hname hvoids⟩
        simp only [take, takeInContent, takeCloseTag, hclose]
    | finish =>
      rcases hclose : closeAll o.void nodes stack with ⟨e, left⟩ | nodes'
      · obtain ⟨voids, hstack, hvoids, hopen⟩ := closeAll_eq_error hclose
        refine .inr ⟨failure src (e :: left) pos 0 (.unclosed e.tag.name
          (Span.locate src e.offset 0).line), e :: left, ?_, rfl, .ends rfl hstack hvoids hopen⟩
        simp only [take, takeInContent, takeFinish, hclose]
      · refine .inl ⟨⟨nodes', [], none⟩, ?_, .ends rfl (closeAll_eq_ok hclose)⟩
        simp only [take, takeInContent, takeFinish, hclose]
    | _ => exact .inr ⟨_, stack, rfl, rfl, .stays (.inr (by simp))⟩
  · cases kind with
    | key | selfClose => exact .inl ⟨_, rfl, .stays (by simp)⟩
    | tagEnd =>
      by_cases hroom : stack.length < o.maxDepth
      · refine .inl ⟨⟨[], ⟨⟨name, attributes.reverse⟩, offset, nodes⟩ :: stack, none⟩, ?_,
          .opens (d := ⟨name, offset, attributes, none⟩) rfl rfl hroom⟩
        simp only [take, takeInTag, takeTagEnd, if_pos hroom]
      · refine .inr ⟨failure src stack offset (name.length + 1) (.tooDeep o.maxDepth), stack, ?_,
          rfl, .stays (.inl rfl)⟩
        simp only [take, takeInTag, takeTagEnd, if_neg hroom]
    | _ => exact .inr ⟨_, stack, rfl, rfl, .stays (.inl rfl)⟩
  · cases kind with
    | value => exact .inl ⟨_, rfl, .stays (by simp)⟩
    | _ => exact .inr ⟨_, stack, rfl, rfl, .stays (.inl rfl)⟩

theorem moves_of_take (h : take o src b t = .ok b') : Moves o t b b'.stack := by
  obtain ⟨b'', hok, hmoves⟩ | ⟨e, left, herror, -⟩ := take_cases o src b t
  · obtain rfl := Except.ok.inj (h.symm.trans hok)
    exact hmoves
  · exact absurd (h.symm.trans herror) (by simp)

theorem strands_of_take (h : take o src b t = .error e) :
    ∃ left, e.chain = chain left ∧ Strands o t b left := by
  obtain ⟨b', hok, -⟩ | ⟨e', left, herror, hstrands⟩ := take_cases o src b t
  · exact absurd (h.symm.trans hok) (by simp)
  · obtain rfl := Except.error.inj (h.symm.trans herror)
    exact ⟨left, hstrands⟩

/-- An element is put on the stack, or elements are taken off that are on it. -/
theorem Moves.push_or_pop {stack : List OpenElement} (h : Moves o t b stack) :
    (∃ e, stack = e :: b.stack) ∨ ∃ popped, b.stack = popped ++ stack := by
  cases h with
  | stays => exact .inr ⟨[], rfl⟩
  | opens => exact .inl ⟨_, rfl⟩
  | @closes voids _ e _ hstack => exact .inr ⟨voids ++ [e], by simpa using hstack⟩
  | ends => exact .inr ⟨b.stack, (List.append_nil _).symm⟩

/-- What is left of the stack when a token is refused was at its bottom. -/
theorem Strands.exists_popped {left : List OpenElement} (h : Strands o t b left) :
    ∃ popped, b.stack = popped ++ left := by
  cases h with
  | stays => exact ⟨[], rfl⟩
  | closes _ hstack => exact ⟨_, hstack⟩
  | ends _ hstack => exact ⟨_, hstack⟩

/-- A builder that has taken tokens, and not the end of the text, is given another one. -/
theorem lt_length_of_taken {i : Nat}
    (h : ((Token.scan src).take i).foldlM (take o src) {} = .ok b)
    (hend : ∀ t ∈ (Token.scan src).take i, t.kind ≠ .finish) : i < (Token.scan src).length := by
  by_contra hle
  rw [List.take_of_length_le (Nat.le_of_not_lt hle)] at h hend
  obtain ⟨tokens, last, hall, -, hlast, -⟩ := (Token.sequence_scan src).kinds
  obtain ⟨kind, text, pos⟩ := last
  rw [hall] at h hend
  rw [List.foldlM_append] at h
  cases kind with
  | finish => exact hend _ (List.mem_append_right _ List.mem_cons_self) rfl
  | fault f =>
    rcases htokens : tokens.foldlM (take o src) {} with e | b₀
    · rw [htokens] at h
      contradiction
    · rw [htokens] at h
      have hfault : take o src b₀ ⟨.fault f, text, pos⟩ = .error _ := take_fault rfl
      simp [bind, Except.bind, hfault] at h
  | _ => contradiction

/-- How a builder fares with the tokens of a text: it is given none that it has no use for, and one
whenever it wants one; and the elements that it ends are open. -/
structure Served (o : ParseOptions) (src : Bytes) : Prop where
  expected : ∀ e, Document.parse o src = .error e → ∀ insideTag text,
    e.fault ≠ .unexpectedToken insideTag text
  next : ∀ i b, ((Token.scan src).take i).foldlM (take o src) {} = .ok b →
    (∀ t ∈ (Token.scan src).take i, t.kind ≠ .finish) → i < (Token.scan src).length
  popped : ∀ b t b', take o src b t = .ok b' → Moves o t b b'.stack ∧
    ((∃ e, b'.stack = e :: b.stack) ∨ ∃ popped, b.stack = popped ++ b'.stack)
  left : ∀ b t e, take o src b t = .error e →
    ∃ popped left, b.stack = popped ++ left ∧ e.chain = chain left ∧ Strands o t b left

end Builder

/-- **The tokens of a text come in groups, each a stretch of the text behind the one before it; and
so a builder finds use for all of them.** -/
theorem Token.served_of_scan (src : Bytes) :
    Token.Sequence src (Token.scan src) ∧ ∀ o, Builder.Served o src where
  left := Token.sequence_scan src
  right o :=
    { expected := fun e h insideTag text hfault => by
        obtain ⟨m, c, b, hreached, hrefused⟩ := Document.parse_eq_error_iff.mp h
        exact hrefused.ne_unexpectedToken insideTag text hfault
      next := fun _ _ => Builder.lt_length_of_taken
      popped := fun _ _ _ h =>
        ⟨Builder.moves_of_take h, (Builder.moves_of_take h).push_or_pop⟩
      left := fun _ _ _ h => by
        obtain ⟨left, hchain, hstrands⟩ := Builder.strands_of_take h
        obtain ⟨popped, hstack⟩ := hstrands.exists_popped
        exact ⟨popped, left, hstack, hchain, hstrands⟩ }

end LayoutMarkup

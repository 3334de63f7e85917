import LayoutMarkup.Proofs.Outlines
import LayoutMarkup.Proofs.Sequences

/-!
# Proofs/OpenElements — the elements that are open at an error

    siblings <outer> siblings <inner> siblings …

`Document.Opens` says of a text alone which elements are open behind it: their start tags stand one
inside the other, and no element between them is open.  `Document.OpenAt` says which elements are
open where a text is refused; there, void elements may have been ended without a closing tag, by a
tag that does not match or by the end of the text.

`Document.FailsAt` says more: for which fault a text is refused, where what it speaks of begins, and
how long that is.  `Document.failsAt_of_parse`: every error is one of these; and for a closing tag
that does not match or an element that is too deep there is no other (`Document.failsAt_iff`).

`Document.openAt_iff`: the elements that an error reports are these and no others.  One direction
reads the text off the states that are reached, the other runs the scanner and the builder over the
text.  `Document.context_of_parse`: the outline of an error is that of the elements open at it.
-/

namespace LayoutMarkup

/-! ## Open elements in a text -/

/-- A tag or a comment begins the text, and does not come to its end. -/
structure Bytes.Unfinished (s : Bytes) : Prop where
  begun : Bytes.utf8 "<" <+: s
  startTag : ∀ {tag : StartTag} {u mark : Bytes}, tag.Written u →
    mark = Bytes.utf8 ">" ∨ mark = Bytes.utf8 "/>" → ¬ u ++ mark <+: s
  closeTag : ∀ {name w : Bytes}, name.IsName → (∀ b ∈ w, Bytes.isBlank b = true) →
    ¬ Bytes.utf8 "</" ++ name ++ w ++ Bytes.utf8 ">" <+: s
  comment : ∀ {body : Bytes}, ¬ Bytes.utf8 "-->" <:+: body →
    ¬ Bytes.utf8 "<!--" ++ body ++ Bytes.utf8 "-->" <+: s

namespace Document

/-- The text writes the siblings, and none of them is still open: they are the same whatever tag
closes next. -/
def Complete (void : NameSet) (nodes : List Node) (s : Bytes) : Prop :=
  ∀ closer, Written void closer nodes s

/-- The elements of the chain, outermost first, are open behind the text: their start tags stand one
inside the other, each behind complete siblings. -/
inductive Opens (o : ParseOptions) : List StartTag → Bytes → Prop
  | nil : Opens o [] []
  | snoc {chain : List StartTag} {tag : StartTag} {nodes : List Node} {s t u : Bytes}
      (h : Opens o chain s) (hnodes : Complete o.void nodes t)
      (hroom : chain.length + Node.nestingAll nodes ≤ o.maxDepth) (htag : tag.Written u)
      (hlt : chain.length < o.maxDepth) :
      Opens o (chain ++ [tag]) (s ++ t ++ (u ++ Bytes.utf8 ">"))

/-- The elements of the chain, outermost first, are open where the text is refused at the offset. -/
inductive OpenAt (o : ParseOptions) (src : Bytes) (chain : List StartTag) : Nat → Prop
  /-- At a tag or a comment that does not come to its end; the offset may lie inside it. -/
  | unfinished {nodes : List Node} {s t rest : Bytes} {offset : Nat} (hsrc : src = s ++ t ++ rest)
      (h : Opens o chain s) (hnodes : Complete o.void nodes t)
      (hroom : chain.length + Node.nestingAll nodes ≤ o.maxDepth) (hrest : rest.Unfinished)
      (hoffset : (s ++ t).length ≤ offset) : OpenAt o src chain offset
  /-- At a start tag, with as many elements open as are allowed. -/
  | startTag {nodes : List Node} {tag : StartTag} {s t u rest : Bytes}
      (hsrc : src = s ++ t ++ (u ++ Bytes.utf8 ">" ++ rest)) (h : Opens o chain s)
      (hnodes : Complete o.void nodes t)
      (hroom : chain.length + Node.nestingAll nodes ≤ o.maxDepth) (htag : tag.Written u)
      (hfull : chain.length = o.maxDepth) : OpenAt o src chain (s ++ t).length
  /-- At a closing tag, which ends void elements but not the innermost one of the chain. -/
  | closeTag {nodes : List Node} {s t name w rest : Bytes}
      (hsrc : src = s ++ t ++ (Bytes.utf8 "</" ++ name ++ w ++ Bytes.utf8 ">" ++ rest))
      (h : Opens o chain s) (hnodes : Written o.void (some name) nodes t)
      (hroom : chain.length + Node.nestingAll nodes ≤ o.maxDepth) (hname : name.IsName)
      (hw : ∀ b ∈ w, Bytes.isBlank b = true)
      (hlast : ∀ tag ∈ chain.getLast?, tag.name ∉ o.void ∧ tag.name ≠ name) :
      OpenAt o src chain (s ++ t).length
  /-- At the end of the text, which ends void elements but not the innermost one of the chain. -/
  | finish {nodes : List Node} {s t : Bytes} (hsrc : src = s ++ t) (h : Opens o chain s)
      (hnodes : Written o.void none nodes t)
      (hroom : chain.length + Node.nestingAll nodes ≤ o.maxDepth)
      (hlast : ∀ tag ∈ chain.getLast?, tag.name ∉ o.void) : OpenAt o src chain (s ++ t).length

/-- The text ends inside the elements of the chain: it is that of the open elements, and then of
siblings in the innermost one, which are written as `siblings` says. -/
def EndsInside (o : ParseOptions) (chain : List StartTag) (siblings : List Node → Bytes → Prop)
    (front : Bytes) : Prop :=
  ∃ s t nodes, front = s ++ t ∧ Opens o chain s ∧ siblings nodes t ∧
    chain.length + Node.nestingAll nodes ≤ o.maxDepth

/-- With the elements of the chain open, outermost first, the text is refused for the fault; what
the fault speaks of begins at the offset and has the length. -/
inductive FailsAt (o : ParseOptions) (src : Bytes) (chain : List StartTag) :
    Fault → Nat → Nat → Prop
  /-- At a tag that does not come to its end. -/
  | unterminatedTag {front rest : Bytes} (hsrc : src = front ++ rest)
      (hfront : EndsInside o chain (Complete o.void) front) (hrest : rest.Unfinished) :
      FailsAt o src chain .unterminatedTag front.length 1
  /-- At a comment that does not come to its end. -/
  | unterminatedComment {front rest : Bytes} (hsrc : src = front ++ rest)
      (hfront : EndsInside o chain (Complete o.void) front) (hrest : rest.Unfinished)
      (hcomment : Bytes.utf8 "<!--" <+: rest) :
      FailsAt o src chain .unterminatedComment front.length 1
  /-- Inside a tag that does not come to its end, at the quote before a value, the last quote of the
  text. -/
  | unterminatedValue {front begun body : Bytes}
      (hsrc : src = front ++ (begun ++ (Bytes.utf8 "\"" ++ body)))
      (hfront : EndsInside o chain (Complete o.void) front)
      (hrest : (begun ++ (Bytes.utf8 "\"" ++ body)).Unfinished) (hbody : '"'.toUInt8 ∉ body) :
      FailsAt o src chain .unterminatedValue (front ++ begun).length 1
  /-- Inside a tag that does not come to its end, at a glyph. -/
  | unexpectedGlyph {place : Fault.Place} {g : Glyph} {front begun rest behind : Bytes}
      (hsrc : src = front ++ (begun ++ rest))
      (hfront : EndsInside o chain (Complete o.void) front) (hrest : (begun ++ rest).Unfinished)
      (hglyph : Bytes.glyph? rest = some (g, behind)) :
      FailsAt o src chain (.unexpectedGlyph place g) (front ++ begun).length 1
  /-- At a closing tag, which ends void elements but not the innermost one of the chain.  What is
  marked is the tag as it would be without blanks. -/
  | mismatchedClose {front name w rest : Bytes}
      (hsrc : src = front ++ (Bytes.utf8 "</" ++ name ++ w ++ Bytes.utf8 ">" ++ rest))
      (hfront : EndsInside o chain (Written o.void (some name)) front) (hname : name.IsName)
      (hw : ∀ b ∈ w, Bytes.isBlank b = true)
      (hlast : ∀ tag ∈ chain.getLast?, tag.name ∉ o.void ∧ tag.name ≠ name) :
      FailsAt o src chain (.mismatchedClose name (chain.getLast?.map (·.name))) front.length
        (name.length + 3)
  /-- At the end of the text, which ends void elements but not the innermost one of the chain. -/
  | unclosed {tag : StartTag} {line : Int} (hfront : EndsInside o chain (Written o.void none) src)
      (hlast : chain.getLast? = some tag) (hvoid : tag.name ∉ o.void) :
      FailsAt o src chain (.unclosed tag.name line) src.length 0
  /-- At a start tag that comes to its end, with as many elements open as are allowed.  What is
  marked is the tag up to the end of its name. -/
  | tooDeep {tag : StartTag} {front u rest : Bytes}
      (hsrc : src = front ++ (u ++ Bytes.utf8 ">" ++ rest))
      (hfront : EndsInside o chain (Complete o.void) front) (htag : tag.Written u)
      (hfull : chain.length = o.maxDepth) :
      FailsAt o src chain (.tooDeep o.maxDepth) front.length (tag.name.length + 1)

/-- The elements of the chain are open where the text is refused. -/
theorem FailsAt.openAt {o : ParseOptions} {src : Bytes} {chain : List StartTag} {f : Fault}
    {offset length : Nat} (h : FailsAt o src chain f offset length) :
    OpenAt o src chain offset := by
  cases h with
  | unterminatedTag hsrc hfront hrest | unterminatedComment hsrc hfront hrest =>
    obtain ⟨s, t, nodes, rfl, hopens, hnodes, hroom⟩ := hfront
    exact .unfinished hsrc hopens hnodes hroom hrest (Nat.le_refl _)
  | unterminatedValue hsrc hfront hrest | unexpectedGlyph hsrc hfront hrest =>
    obtain ⟨s, t, nodes, rfl, hopens, hnodes, hroom⟩ := hfront
    exact .unfinished hsrc hopens hnodes hroom hrest (List.prefix_append _ _).length_le
  | mismatchedClose hsrc hfront hname hw hlast =>
    obtain ⟨s, t, nodes, rfl, hopens, hnodes, hroom⟩ := hfront
    exact .closeTag hsrc hopens hnodes hroom hname hw hlast
  | unclosed hfront hlast hvoid =>
    obtain ⟨s, t, nodes, rfl, hopens, hnodes, hroom⟩ := hfront
    refine .finish rfl hopens hnodes hroom fun tag htag => ?_
    obtain rfl := Option.some.inj (hlast.symm.trans htag)
    exact hvoid
  | tooDeep hsrc hfront htag hfull =>
    obtain ⟨s, t, nodes, rfl, hopens, hnodes, hroom⟩ := hfront
    exact .startTag hsrc hopens hnodes hroom htag hfull

theorem Opens.written {o : ParseOptions} {chain : List StartTag} {s : Bytes} (h : Opens o chain s) :
    ∀ t ∈ chain, ∃ u, t.Written u := by
  induction h with
  | nil => simp
  | snoc _ _ _ htag _ ih =>
    intro t ht
    rcases List.mem_append.mp ht with hchain | htag'
    · exact ih t hchain
    · obtain rfl := List.mem_singleton.mp htag'
      exact ⟨_, htag⟩

theorem Opens.length_le {o : ParseOptions} {chain : List StartTag} {s : Bytes}
    (h : Opens o chain s) : chain.length ≤ o.maxDepth := by
  obtain _ | ⟨-, -, -, -, hlt⟩ := h
  · exact Nat.zero_le _
  · rw [List.length_append, List.length_singleton]
    exact hlt

end Document

/-! ## Tags that do not come to their end -/

namespace Token

/-- Is the token one of a start tag before its end, or a fault? -/
def isOpen (t : Token) : Bool :=
  match t.kind with
  | .tagName | .key | .value | .fault _ => true
  | _ => false

variable {m m' : Mode} {c c' : Cursor} {t : Token} {pos start : Nat} {s rest u : Bytes}

theorem subset_of_reads (h : Reads pos m s rest t m') :
    scanFrom m' ⟨pos + s.length, rest⟩ ⊆ scanFrom m ⟨pos, s ++ rest⟩ := by
  rw [scanFrom_of_emit (step_of_reads h)]
  exact List.subset_cons_self _ _

theorem mem_of_reads (h : Reads pos m s rest t m') : t ∈ scanFrom m ⟨pos, s ++ rest⟩ := by
  rw [scanFrom_of_emit (step_of_reads h)]
  exact List.mem_cons_self

/-- What comes behind attributes is scanned with them. -/
theorem subset_of_attributes {as : List Attribute} (h : Attribute.AllWritten as s) (rest : Bytes)
    (pos : Nat) :
    scanFrom (.tag start) ⟨pos + s.length, rest⟩ ⊆ scanFrom (.tag start) ⟨pos, s ++ rest⟩ := by
  induction h generalizing pos with
  | nil => exact List.Subset.refl _
  | @cons w s t a as hw ha _ ih =>
    obtain @⟨key, w₁, w₂, value, hkey, hw₁, hw₂, hvalue⟩ := ha
    generalize hv : w₁ ++ Bytes.utf8 "=" ++ w₂ ++ Bytes.utf8 "\"" ++ value ++ Bytes.utf8 "\"" = v
    have hstop : Bytes.Stops isNamePart (v ++ (t ++ rest)) := by
      simp only [← hv, List.append_assoc]
      exact Builder.stops_of_blanks hw₁ (Bytes.stops_cons (by decide) (by decide) _)
    have hreads : Reads pos (.tag start) (w ++ key) (v ++ (t ++ rest)) _ (.value start) :=
      .key hw hkey hstop
    have hreads' : Reads (pos + (w ++ key).length) (.value start) _ (t ++ rest) _ (.tag start) :=
      .value hw₁ hw₂ hvalue
    rw [hv] at hreads'
    have hattribute := List.Subset.trans (subset_of_reads hreads') (subset_of_reads hreads)
    have hall := List.Subset.trans (ih _) hattribute
    simpa only [List.append_assoc, List.length_append, Nat.add_assoc] using hall

/-- A start tag is scanned up to the blanks before its end. -/
theorem subset_of_startTag {tag : StartTag} (h : tag.Written u) (hrest : rest.Stops isNamePart)
    (pos : Nat) :
    ∃ w pos', (∀ b ∈ w, Bytes.isBlank b = true) ∧
      scanFrom (.tag pos) ⟨pos', w ++ rest⟩ ⊆ scanFrom .content ⟨pos, u ++ rest⟩ := by
  obtain @⟨name, v, w, as, hname, has, hgap, hw⟩ := h
  have hstop := Builder.stops_of_attributes hgap hw hrest
  have hreads : Reads pos .content (Bytes.utf8 "<" ++ name) (v ++ (w ++ rest)) _ (.tag pos) :=
    .openTag hname hstop
  have hall := List.Subset.trans (subset_of_attributes has (w ++ rest) _) (subset_of_reads hreads)
  exact ⟨w, _, hw, by simpa only [List.append_assoc] using hall⟩

/-- A start tag that comes to its end has a token for its end. -/
theorem exists_mem_of_startTag {tag : StartTag} {mark : Bytes} (h : tag.Written u)
    (hmark : mark = Bytes.utf8 ">" ∨ mark = Bytes.utf8 "/>") (rest : Bytes) (pos : Nat) :
    ∃ t ∈ scanFrom .content ⟨pos, u ++ mark ++ rest⟩, t.isOpen = false := by
  have hstop : (mark ++ rest).Stops isNamePart := by
    rcases hmark with rfl | rfl
    · exact Bytes.stops_cons (by decide) (by decide) _
    · exact Bytes.stops_cons (by decide) (by decide) _
  obtain ⟨w, pos', hw, hsubset⟩ := subset_of_startTag h hstop pos
  have hend : ∃ t, t.isOpen = false ∧ Reads pos' (.tag pos) (w ++ mark) rest t .content := by
    rcases hmark with rfl | rfl
    · exact ⟨_, rfl, .tagEnd hw⟩
    · exact ⟨_, rfl, .selfClose hw⟩
  obtain ⟨t, ht, hreads⟩ := hend
  have hmem := mem_of_reads hreads
  rw [List.append_assoc] at hmem ⊢
  exact ⟨t, hsubset hmem, ht⟩

/-- **Where the scanner finds no end of a tag or comment, it does not come to its end.** -/
theorem unfinished_of_scanFrom
    (h : ∀ t ∈ scanFrom .content ⟨pos, s⟩, t.isOpen = true) :
    s.Unfinished where
  begun := by
    rcases s with _ | ⟨b, s⟩
    · have hmem : ⟨.finish, [], pos⟩ ∈ scanFrom .content ⟨pos, []⟩ := by
        rw [scanFrom_of_halt rfl]
        exact List.mem_singleton_self _
      exact absurd (h _ hmem) Bool.false_ne_true
    · refine tag_ahead (List.cons_ne_nil b s) ?_
      by_contra hne
      have hsplit := List.takeWhile_append_dropWhile (p := (· != '<'.toUInt8)) (l := b :: s)
      have hreads : Reads pos .content _ ((b :: s).dropWhile (· != '<'.toUInt8)) _ .content :=
        .text hne (fun hmem => by simpa using List.mem_takeWhile_imp hmem)
          (fun b hb => by simpa using head?_dropWhile b hb)
      have hmem := mem_of_reads hreads
      rw [hsplit] at hmem
      exact absurd (h _ hmem) Bool.false_ne_true
  startTag := by
    rintro tag u mark htag hmark ⟨rest, rfl⟩
    obtain ⟨t, ht, hopen⟩ := exists_mem_of_startTag htag hmark rest pos
    rw [h t ht] at hopen
    contradiction
  closeTag := by
    rintro name w hname hw ⟨rest, rfl⟩
    have hreads : Reads pos .content _ rest _ .content := .closeTag hname hw
    exact absurd (h _ (mem_of_reads hreads)) Bool.false_ne_true
  comment := by
    rintro body hbody ⟨rest, rfl⟩
    have hreads : Reads pos .content _ rest _ .content := .comment hbody
    exact absurd (h _ (mem_of_reads hreads)) Bool.false_ne_true

end Token

namespace Builder

variable {o : ParseOptions} {src : Bytes} {m m' : Token.Mode} {c c' : Cursor} {b b' : Builder}
  {d : Draft} {t : Token} {e : ParseError} {stack left : List OpenElement}

theorem standing_nil {s : Bytes} (h : Standing o [] [] s) : s = [] := by
  obtain ⟨haround, hbegun, -⟩ := h
  cases haround
  have hnil := hbegun.written none
  generalize hnodes : ([] : List Node).reverse = nodes at hnil
  cases hnil with
  | nil => rfl
  | _ => contradiction

/-- The text of a start tag up to blanks before its end. -/
theorem Progress.startTag {start : Nat} {v w rest : Bytes}
    (h : Progress o (.tag start) ⟨[], [], some d⟩ v rest)
    (hw : ∀ b ∈ w, Bytes.isBlank b = true) :
    StartTag.Written ⟨d.name, d.attributes.reverse⟩ (v ++ w) := by
  obtain _ | @⟨_, _, _, _, s, u, _, hstand, hname, has, hgap, -, -⟩ := h
  obtain rfl := standing_nil hstand
  have htag := StartTag.Written.intro hname has hgap hw
  simpa only [List.nil_append, List.append_assoc] using htag

/-- **Inside a start tag, a token goes on with the tag or ends it**, whatever is around it. -/
theorem Progress.inTag_cases {pos : Nat} {s v rest : Bytes}
    (h : Progress o m ⟨[], [], some d⟩ v (s ++ rest)) (hreads : Token.Reads pos m s rest t m') :
    (∃ d', d'.offset = d.offset ∧ t.isOpen = true ∧ Progress o m' ⟨[], [], some d'⟩ (v ++ s) rest ∧
      ∀ src nodes stack, take o src ⟨nodes, stack, some d⟩ t = .ok ⟨nodes, stack, some d'⟩) ∨
    (m' = .content ∧ ∃ tag u mark, StartTag.Written tag u ∧
      (mark = Bytes.utf8 ">" ∨ mark = Bytes.utf8 "/>") ∧ v ++ s = u ++ mark) := by
  have hkey : ∀ {start}, m = .tag start → d.key = none := by
    rintro start rfl
    obtain _ | ⟨-, -, -, -, hkey, -⟩ := h
    exact hkey
  cases hreads with
  | text | comment | closeTag | openTag => contradiction
  | @key _ w name _ hw hname hrest =>
    have htake : ∀ src nodes stack, take o src ⟨nodes, stack, some d⟩ ⟨.key, name, pos + w.length⟩
        = .ok ⟨nodes, stack, some { d with key := some name }⟩ := by
      intro src nodes stack
      simp only [take, takeInTag, hkey rfl]
    exact .inl ⟨{ d with key := some name }, rfl, rfl,
      h.step (.key hw hname hrest) (htake [] [] []), htake⟩
  | @value start w w' value _ hw hw' hvalue =>
    obtain ⟨key, hsome⟩ : ∃ key, d.key = some key := by
      obtain _ | _ | ⟨-, -, -, -, -, hsome, -⟩ := h
      exact ⟨_, hsome⟩
    have htake : ∀ src nodes stack, take o src ⟨nodes, stack, some d⟩
        ⟨.value, value, pos + w.length + 1 + w'.length + 1⟩
        = .ok ⟨nodes, stack, some ⟨d.name, d.offset, ⟨key, value⟩ :: d.attributes, none⟩⟩ := by
      intro src nodes stack
      simp only [take, takeInTag, hsome]
    exact .inl ⟨⟨d.name, d.offset, ⟨key, value⟩ :: d.attributes, none⟩, rfl, rfl,
      h.step (.value hw hw' hvalue) (htake [] [] []), htake⟩
  | tagEnd hw =>
    exact .inr ⟨rfl, _, _, _, h.startTag hw, .inl rfl, (List.append_assoc ..).symm⟩
  | selfClose hw =>
    exact .inr ⟨rfl, _, _, _, h.startTag hw, .inr rfl, (List.append_assoc ..).symm⟩

/-- Inside a start tag that does not come to its end, the scanner finds no end either. -/
theorem Progress.isOpen_of_unfinished {m : Token.Mode} {c : Cursor} {d : Draft} {v : Bytes}
    (h : Progress o m ⟨[], [], some d⟩ v c.rest) (hrest : (v ++ c.rest).Unfinished) :
    ∀ t ∈ Token.scanFrom m c, t.isOpen = true := by
  rcases hstep : Token.step m c with ⟨t, m', c'⟩ | t
  · have hlt := Token.length_lt_of_step hstep
    obtain ⟨s, hs, -, hreads⟩ := Token.step_eq_emit_iff.mp hstep
    rw [hs] at h hrest
    rw [Token.scanFrom_of_emit hstep]
    obtain ⟨d', -, hopen, h', -⟩ | ⟨-, tag, u, mark, htag, hmark, hvs⟩ := h.inTag_cases hreads
    · rw [← List.append_assoc] at hrest
      exact List.forall_mem_cons.mpr ⟨hopen, isOpen_of_unfinished h' hrest⟩
    · rw [← List.append_assoc, hvs] at hrest
      exact absurd (List.prefix_append _ _) (hrest.startTag htag hmark)
  · rw [Token.scanFrom_of_halt hstep]
    intro u hu
    obtain rfl := List.mem_singleton.mp hu
    obtain ⟨rfl, -⟩ | ⟨f, hf⟩ := Token.finish_or_fault_of_halt hstep
    · contradiction
    · rw [Token.isOpen, hf]
termination_by c.rest.length

/-- A start tag has just begun. -/
theorem progress_openTag {pos : Nat} {name rest : Bytes} (hname : name.IsName)
    (hrest : rest.Stops isNamePart) :
    Progress o (.tag pos) ⟨[], [], some ⟨name, pos, [], none⟩⟩ (Bytes.utf8 "<" ++ name) rest := by
  have hstart : Progress o .content ⟨[], [], none⟩ [] (Bytes.utf8 "<" ++ name ++ rest) :=
    .content (.intro .nil begun_nil (Nat.zero_le _)) (by simp)
  have hreads : Token.Reads pos .content (Bytes.utf8 "<" ++ name) rest _ (.tag pos) :=
    .openTag hname hrest
  have htake : take o [] ⟨[], [], none⟩ ⟨.tagName, name, pos + 1⟩
      = .ok ⟨[], [], some ⟨name, pos, [], none⟩⟩ := rfl
  exact hstart.step hreads htake

/-- **Where a tag or a comment does not come to its end, the scanner finds no end of one.** -/
theorem isOpen_of_unfinished {pos : Nat} {s : Bytes} (h : s.Unfinished) :
    ∀ t ∈ Token.scanFrom .content ⟨pos, s⟩, t.isOpen = true := by
  rcases hstep : Token.step .content ⟨pos, s⟩ with ⟨t, m', ⟨pos', rest⟩⟩ | t
  · obtain ⟨r, hr, -, hreads⟩ := Token.step_eq_emit_iff.mp hstep
    obtain rfl : s = r ++ rest := hr
    rw [Token.scanFrom_of_emit hstep]
    cases hreads with
    | text hne hraw =>
      obtain ⟨b, raw, rfl⟩ := List.exists_cons_of_ne_nil hne
      obtain ⟨tail, htail⟩ := h.begun
      obtain rfl : '<'.toUInt8 = b := (List.cons.inj htail).1
      exact absurd List.mem_cons_self hraw
    | comment hbody => exact absurd (List.prefix_append _ _) (h.comment hbody)
    | closeTag hname hw => exact absurd (List.prefix_append _ _) (h.closeTag hname hw)
    | openTag hname hrest =>
      have hprogress : Progress {} (.tag pos) _ _ rest := progress_openTag hname hrest
      exact List.forall_mem_cons.mpr ⟨rfl, hprogress.isOpen_of_unfinished h⟩
  · rw [Token.scanFrom_of_halt hstep]
    intro u hu
    obtain rfl := List.mem_singleton.mp hu
    obtain ⟨-, hend, -⟩ | ⟨f, hf⟩ := Token.finish_or_fault_of_halt hstep
    · obtain rfl : s = [] := hend
      exact absurd h.begun (by decide)
    · rw [Token.isOpen, hf]

/-! ## From the states that are reached to the text -/

theorem Reached.progress (h : Reached o src m c b) :
    ∃ s, src = s ++ c.rest ∧ c.pos = s.length ∧ Progress o m b s c.rest := by
  induction h with
  | start => exact ⟨[], rfl, rfl, .content (.intro .nil begun_nil (Nat.zero_le _)) (by simp)⟩
  | step _ hstep htake ih =>
    obtain ⟨s, hsrc, hpos, hprogress⟩ := ih
    obtain ⟨r, hrest, hpos', hreads⟩ := Token.step_eq_emit_iff.mp hstep
    rw [hrest] at hsrc hprogress
    refine ⟨s ++ r, ?_, ?_, hprogress.step hreads htake⟩
    · rw [hsrc, List.append_assoc]
    · rw [hpos', hpos, List.length_append]

/-- Between tags, the text so far is that of the open elements and of the siblings in the innermost
one. -/
theorem Reached.standing (h : Reached o src .content c b) :
    ∃ s t, src = s ++ t ++ c.rest ∧ c.pos = (s ++ t).length ∧ Around o b.stack s ∧
      Begun o.void b.nodes t ∧ b.stack.length + Node.nestingAll b.nodes ≤ o.maxDepth := by
  obtain ⟨s, hsrc, hpos, hprogress⟩ := h.progress
  obtain @⟨nodes, stack, _, _, ⟨haround, hbegun, hroom⟩, -⟩ := hprogress
  exact ⟨_, _, hsrc, hpos, haround, hbegun, hroom⟩

/-- Inside a start tag, the state where it begins has been reached, and the text since then is that
of the tag so far. -/
theorem Reached.exists_begin (h : Reached o src m c b) (hdraft : b.draft = some d) :
    ∃ c₀ v, Reached o src .content c₀ ⟨b.nodes, b.stack, none⟩ ∧ c₀.pos = d.offset ∧
      c₀.rest = v ++ c.rest ∧ c.pos = c₀.pos + v.length ∧ Progress o m ⟨[], [], some d⟩ v c.rest ∧
      ∀ t ∈ Token.scanFrom .content c₀, t ∈ Token.scanFrom m c ∨ t.isOpen = true := by
  induction h generalizing d with
  | start => contradiction
  | @step m m' c c' b b' t h hstep htake ih =>
    have hagrees := (h.step hstep htake).agrees
    have hscan := Token.scanFrom_of_emit hstep
    obtain ⟨nodes, stack, draft⟩ := b
    obtain ⟨s, hrest, hpos, hreads⟩ := Token.step_eq_emit_iff.mp hstep
    rw [hdraft] at hagrees
    rcases draft with _ | d₀
    · -- A tag begins with the token.
      have hcontent := h.agrees
      cases hreads with
      | text | comment | closeTag => contradiction
      | @openTag name _ hname hstop =>
        obtain rfl := Except.ok.inj htake
        obtain rfl := Option.some.inj hdraft
        refine ⟨c, _, h, rfl, hrest, hpos, progress_openTag hname hstop, ?_⟩
        rw [hscan]
        exact List.forall_mem_cons.mpr ⟨.inr rfl, fun t ht => .inl ht⟩
      | _ => contradiction
    · obtain ⟨c₀, v, hreached, hstart, hrest₀, hpos₀, hprogress, hopen⟩ := ih rfl
      rw [hrest] at hprogress
      obtain ⟨d', hoffset, htopen, hprogress', htake'⟩ | ⟨rfl, -⟩ := hprogress.inTag_cases hreads
      · rw [htake'] at htake
        obtain rfl := Except.ok.inj htake
        obtain rfl := Option.some.inj hdraft
        refine ⟨c₀, v ++ s, hreached, hstart.trans hoffset.symm, ?_, ?_, hprogress', fun u hu => ?_⟩
        · rw [hrest₀, hrest, List.append_assoc]
        · rw [hpos, hpos₀, List.length_append, Nat.add_assoc]
        · rcases hopen u hu with hmem | hopen
          · rw [hscan] at hmem
            rcases List.mem_cons.mp hmem with rfl | hmem
            · exact .inr htopen
            · exact .inl hmem
          · exact .inr hopen
      · contradiction

theorem getLast?_chain (stack : List OpenElement) :
    (chain stack).getLast? = stack.head?.map (·.tag) := by
  rw [chain, List.getLast?_reverse, List.head?_map]

@[simp] theorem length_chain (stack : List OpenElement) : (chain stack).length = stack.length := by
  rw [chain, List.length_reverse, List.length_map]

theorem Around.opens {s : Bytes} (h : Around o stack s) (hle : stack.length ≤ o.maxDepth) :
    Document.Opens o (chain stack) s := by
  induction h with
  | nil => exact .nil
  | @cons e stack s t u haround hbegun htag hroom ih =>
    rw [List.length_cons] at hle
    have hchain : chain (e :: stack) = chain stack ++ [e.tag] := by simp [chain]
    rw [hchain]
    refine .snoc (ih (by omega)) hbegun.written ?_ htag ?_
    · simpa [chain] using hroom
    · simpa [chain] using Nat.lt_of_succ_le hle

/-- Void elements at the top of the stack can be left to end with the siblings inside them. -/
theorem Around.leave_voids {closer : Option Bytes} {voids : List OpenElement} {nodes : List Node}
    {s t : Bytes} (h : Around o (voids ++ left) s)
    (hvoids : ∀ v ∈ voids, v.tag.name ∈ o.void ∧ closer ≠ some v.tag.name)
    (hnodes : Document.Written o.void closer nodes.reverse t)
    (hroom : (voids ++ left).length + Node.nestingAll nodes ≤ o.maxDepth) :
    ∃ s' t' nodes', s ++ t = s' ++ t' ∧ Around o left s' ∧
      Document.Written o.void closer nodes' t' ∧
      left.length + Node.nestingAll nodes' ≤ o.maxDepth := by
  induction voids generalizing nodes s t with
  | nil => exact ⟨s, t, nodes.reverse, rfl, h, hnodes, by simpa using hroom⟩
  | cons v voids ih =>
    obtain ⟨⟨hvoid, hcloser⟩, hvoids⟩ := List.forall_mem_cons.mp hvoids
    obtain _ | @⟨_, _, s, u, x, haround, hbegun, htag, hbefore⟩ := h
    have hbefore : (voids ++ left).length + Node.nestingAll v.before ≤ o.maxDepth := hbefore
    rw [List.cons_append, List.length_cons] at hroom
    obtain ⟨s', t', nodes', heq, hrest⟩ := ih haround hvoids
      (hbegun.unclosed htag hvoid hcloser hnodes) (by rw [nestingAll_close]; omega)
    refine ⟨s', t', nodes', ?_, hrest⟩
    rw [← heq]
    simp only [List.append_assoc]

/-- Between tags, the elements on the stack are open, with complete siblings in the last one. -/
theorem Reached.endsInside (h : Reached o src .content c b) :
    ∃ front, src = front ++ c.rest ∧ c.pos = front.length ∧
      Document.EndsInside o (chain b.stack) (Document.Complete o.void) front := by
  obtain ⟨s, t, hsrc, hpos, haround, hbegun, hroom⟩ := h.standing
  have hopens := haround.opens (Nat.le_of_add_right_le hroom)
  exact ⟨s ++ t, hsrc, hpos, s, t, b.nodes.reverse, rfl, hopens, hbegun.written,
    by simpa using hroom⟩

/-- Between tags, void elements may be left to end, and then those below them on the stack are the
ones that are open. -/
theorem Reached.endsInside_left {closer : Option Bytes} {voids : List OpenElement}
    (h : Reached o src .content c b) (hstack : b.stack = voids ++ left)
    (hvoids : ∀ v ∈ voids, v.tag.name ∈ o.void ∧ closer ≠ some v.tag.name) :
    ∃ front, src = front ++ c.rest ∧ c.pos = front.length ∧
      Document.EndsInside o (chain left) (Document.Written o.void closer) front := by
  obtain ⟨s, t, hsrc, hpos, haround, hbegun, hroom⟩ := h.standing
  rw [hstack] at haround hroom
  obtain ⟨s', t', nodes, heq, haround', hnodes, hroom'⟩ :=
    haround.leave_voids hvoids (hbegun.written closer) hroom
  have hopens := haround'.opens (Nat.le_of_add_right_le hroom')
  exact ⟨s ++ t, hsrc, hpos, s', t', nodes, heq, hopens, hnodes, by rwa [length_chain]⟩

/-- Where the scanner stops for a fault, it is in a tag or comment that does not come to its end,
and the state where that begins has been reached. -/
theorem Reached.exists_unfinished {f : Fault} (h : Reached o src m c b)
    (hstep : Token.step m c = .halt t) (hkind : t.kind = .fault f) :
    ∃ c₀, Reached o src .content c₀ ⟨b.nodes, b.stack, none⟩ ∧ c₀.rest.Unfinished ∧ c₀.Ahead c ∧
      (m = .content → c₀ = c) ∧ ∀ start, m = .tag start ∨ m = .value start → c₀.pos = start := by
  have hscan : ∀ u ∈ Token.scanFrom m c, u.isOpen = true := by
    rw [Token.scanFrom_of_halt hstep]
    intro u hu
    obtain rfl := List.mem_singleton.mp hu
    rw [Token.isOpen, hkind]
  have hagrees := h.agrees
  obtain ⟨nodes, stack, _ | d⟩ := b
  · obtain _ | _ | _ := hagrees
    have hscan' : ∀ u ∈ Token.scanFrom .content ⟨c.pos, c.rest⟩, u.isOpen = true := hscan
    exact ⟨c, h, Token.unfinished_of_scanFrom hscan', .refl c, fun _ => rfl, by simp⟩
  · obtain ⟨c₀, v, hreached, hstart, hrest, hpos, -, htokens⟩ := h.exists_begin rfl
    have hopen : ∀ u ∈ Token.scanFrom .content ⟨c₀.pos, c₀.rest⟩, u.isOpen = true :=
      fun u hu => (htokens u hu).elim (hscan u) id
    refine ⟨c₀, hreached, Token.unfinished_of_scanFrom hopen, ⟨v, hrest, hpos⟩, ?_, ?_⟩
    · rintro rfl
      contradiction
    · intro start hm
      obtain _ | _ | _ := hagrees
      · obtain rfl : d.offset = start := by simpa using hm
        exact hstart
      · obtain rfl : d.offset = start := by simpa using hm
        exact hstart

/-- **What the scanner stops for is what the text is refused for**, in the tag or comment that does
not come to its end. -/
theorem Reached.failsAt_of_halt {f : Fault} (h : Reached o src m c b)
    (hstep : Token.step m c = .halt t) (hkind : t.kind = .fault f) :
    Document.FailsAt o src (chain b.stack) f t.pos 1 := by
  obtain ⟨c₀, hreached, hunfinished, hahead, hcontent, htag⟩ := h.exists_unfinished hstep hkind
  obtain ⟨front, hsrc, hpos, hfront⟩ := hreached.endsInside
  cases Token.halts_of_step hstep with
  | finish => contradiction
  | openTag hm =>
    obtain rfl := Token.Kind.fault.inj hkind
    obtain rfl := hcontent hm
    rw [hpos]
    exact .unterminatedTag hsrc hfront hunfinished
  | inTag hm =>
    obtain rfl := Token.Kind.fault.inj hkind
    obtain rfl := hpos.symm.trans (htag _ hm)
    exact .unterminatedTag hsrc hfront hunfinished
  | comment hm hopen =>
    obtain rfl := Token.Kind.fault.inj hkind
    obtain rfl := hcontent hm
    rw [hpos]
    exact .unterminatedComment hsrc hfront hunfinished hopen
  | value hahead' hopen hbody =>
    obtain rfl := Token.Kind.fault.inj hkind
    obtain ⟨begun, hbegun, hpos'⟩ := hahead.trans hahead'
    rw [hbegun, hopen] at hsrc hunfinished
    rw [hpos', hpos, ← List.length_append]
    exact .unterminatedValue hsrc hfront hunfinished hbody
  | glyph hahead' hpeek =>
    obtain rfl := Token.Kind.fault.inj hkind
    obtain ⟨begun, hbegun, hpos'⟩ := hahead.trans hahead'
    obtain ⟨⟨g, behind⟩, hglyph, rfl⟩ := Option.map_eq_some_iff.mp hpeek
    rw [hbegun] at hsrc hunfinished
    rw [hpos', hpos, ← List.length_append]
    exact .unexpectedGlyph hsrc hfront hunfinished hglyph

/-- **What an error reports is what the text is refused for**: the fault, its place, and the
elements open there. -/
theorem Reached.failsAt (h : Reached o src m c b) (hrefused : Refused o src m c b e) :
    Document.FailsAt o src e.chain e.fault e.offset e.length := by
  cases hrefused with
  | fault hstep hkind => exact h.failsAt_of_halt hstep hkind
  | @unclosed pos b e stack hclose =>
    show Document.FailsAt o src (chain (e :: stack)) (.unclosed e.tag.name _) pos 0
    obtain ⟨voids, hstack, hvoids, he⟩ := closeAll_eq_error hclose
    obtain ⟨front, hsrc, hpos, hfront⟩ :=
      h.endsInside_left hstack fun v hv => ⟨hvoids v hv, (Option.some_ne_none _).symm⟩
    obtain rfl : src = front := by simpa using hsrc
    obtain rfl : pos = src.length := hpos
    exact .unclosed hfront (getLast?_chain _) he
  | @mismatchedClose pos name w rest b stack hname hw hclose =>
    show Document.FailsAt o src (chain stack) (.mismatchedClose name (stack.head?.map (·.tag.name)))
      pos (name.length + 3)
    obtain ⟨voids, hstack, hvoids, he⟩ := closeTo_eq_error hclose
    obtain ⟨front, hsrc, hpos, hfront⟩ :=
      h.endsInside_left hstack fun v hv =>
        ⟨(hvoids v hv).1, fun hname => (hvoids v hv).2 (Option.some.inj hname).symm⟩
    obtain rfl : pos = front.length := hpos
    have hlast : ∀ tag ∈ (chain stack).getLast?, tag.name ∉ o.void ∧ tag.name ≠ name := by
      intro tag htag
      rw [getLast?_chain] at htag
      obtain ⟨e, hhead, rfl⟩ := Option.map_eq_some_iff.mp htag
      exact he e hhead
    have hfails := Document.FailsAt.mismatchedClose hsrc hfront hname hw hlast
    rwa [getLast?_chain, Option.map_map] at hfails
  | @tooDeep pos w rest b d hdraft hkey hw hfull =>
    show Document.FailsAt o src (chain b.stack) (.tooDeep o.maxDepth) d.offset (d.name.length + 1)
    obtain ⟨c₀, v, hreached, hstart, hrest, -, hprogress, -⟩ := h.exists_begin hdraft
    obtain ⟨front, hsrc, hpos, hfront⟩ := hreached.endsInside
    have hlength : (chain b.stack).length = o.maxDepth := by
      obtain ⟨s, t, nodes, -, hopens, -⟩ := hfront
      refine Nat.le_antisymm hopens.length_le ?_
      rwa [length_chain]
    have hsrc' : src = front ++ (v ++ w ++ Bytes.utf8 ">" ++ rest) := by
      rw [hsrc, hrest]
      simp only [List.append_assoc]
    rw [← hstart, hpos]
    exact .tooDeep hsrc' hfront (hprogress.startTag hw) hlength

/-! ## From the text to the error -/

theorem exists_lastClosed (nodes : List Node) : ∃ closer, LastClosed closer nodes := by
  by_cases h : ∃ name as children, nodes.getLast? = some (.element name as children false)
  · obtain ⟨name, as, children, hlast⟩ := h
    refine ⟨some name, fun name' _ _ hlast' => ?_⟩
    obtain ⟨rfl, -⟩ := Node.element.inj (Option.some.inj (hlast.symm.trans hlast'))
    rfl
  · exact ⟨none, fun name as children hlast => absurd ⟨name, as, children, hlast⟩ h⟩

/-- Complete siblings are read as what they are, and nothing is open behind them. -/
theorem run_complete {nodes before : List Node} {pos : Nat} {s rest : Bytes}
    (h : Document.Complete o.void nodes s) (hrest : ∀ b ∈ rest.head?, b = '<'.toUInt8)
    (hroom : stack.length + Node.nestingAll nodes ≤ o.maxDepth) :
    run o src .content ⟨pos, s ++ rest⟩ ⟨before, stack, none⟩
      = run o src .content ⟨pos + s.length, rest⟩ ⟨nodes.reverse ++ before, stack, none⟩ := by
  obtain ⟨closer, hlast⟩ := exists_lastClosed nodes
  obtain ⟨b, -, hrun, -, hexact⟩ := run_written (h closer) rest hrest pos before stack hroom
  rw [hrun, hexact hlast]

theorem head_startTag {tag : StartTag} {u rest : Bytes} (h : tag.Written u) :
    ∀ b ∈ (u ++ rest).head?, b = '<'.toUInt8 := by
  obtain ⟨-, -, -, -⟩ := h
  simp [utf8_open]

/-- **The elements open in a text are those that the builder has open behind it.** -/
theorem run_opens {tags : List StartTag} {s : Bytes} (h : Document.Opens o tags s) (rest : Bytes) :
    ∃ stack, chain stack = tags ∧ run o src .content ⟨0, s ++ rest⟩ {}
      = run o src .content ⟨s.length, rest⟩ ⟨[], stack, none⟩ := by
  induction h generalizing rest with
  | nil => exact ⟨[], rfl, rfl⟩
  | @snoc tags tag nodes s t u _ hnodes hroom htag hlt ih =>
    obtain ⟨stack, rfl, hrun⟩ := ih (t ++ (u ++ Bytes.utf8 ">" ++ rest))
    rw [length_chain] at hroom hlt
    refine ⟨⟨tag, s.length + t.length, nodes.reverse ++ []⟩ :: stack, by simp [chain], ?_⟩
    have hhead : ∀ b ∈ (u ++ Bytes.utf8 ">" ++ rest).head?, b = '<'.toUInt8 := by
      rw [List.append_assoc]
      exact head_startTag htag
    calc run o src .content ⟨0, s ++ t ++ (u ++ Bytes.utf8 ">") ++ rest⟩ {}
        = run o src .content ⟨0, s ++ (t ++ (u ++ Bytes.utf8 ">" ++ rest))⟩ {} := by
          simp only [List.append_assoc]
      _ = run o src .content ⟨s.length, t ++ (u ++ Bytes.utf8 ">" ++ rest)⟩
            ⟨[], stack, none⟩ := hrun
      _ = run o src .content ⟨s.length + t.length, u ++ Bytes.utf8 ">" ++ rest⟩
            ⟨nodes.reverse ++ [], stack, none⟩ := run_complete hnodes hhead hroom
      _ = run o src .content ⟨s.length + t.length + (u ++ Bytes.utf8 ">").length, rest⟩
            ⟨[], ⟨tag, s.length + t.length, nodes.reverse ++ []⟩ :: stack, none⟩ :=
          run_opening htag rest _ _ hlt
      _ = run o src .content ⟨(s ++ t ++ (u ++ Bytes.utf8 ">")).length, rest⟩
            ⟨[], ⟨tag, s.length + t.length, nodes.reverse ++ []⟩ :: stack, none⟩ := by
          simp only [List.length_append]

/-- Behind the open elements, complete siblings are read. -/
theorem run_opens_complete {tags : List StartTag} {nodes : List Node} {s t : Bytes}
    (h : Document.Opens o tags s) (hnodes : Document.Complete o.void nodes t)
    (hroom : tags.length + Node.nestingAll nodes ≤ o.maxDepth) {rest : Bytes}
    (hrest : ∀ b ∈ rest.head?, b = '<'.toUInt8) :
    ∃ stack, chain stack = tags ∧ run o src .content ⟨0, s ++ t ++ rest⟩ {}
      = run o src .content ⟨(s ++ t).length, rest⟩ ⟨nodes.reverse, stack, none⟩ := by
  obtain ⟨stack, rfl, hrun⟩ := @run_opens o src _ _ h (t ++ rest)
  rw [length_chain] at hroom
  refine ⟨stack, rfl, ?_⟩
  rw [List.append_assoc, hrun, run_complete hnodes hrest hroom, List.append_nil, List.length_append]

/-- Behind the open elements, siblings are read up to void elements that are still open. -/
theorem run_opens_written {tags : List StartTag} {closer : Option Bytes} {nodes : List Node}
    {s t : Bytes} (h : Document.Opens o tags s) (hnodes : Document.Written o.void closer nodes t)
    (hroom : tags.length + Node.nestingAll nodes ≤ o.maxDepth) {rest : Bytes}
    (hrest : ∀ b ∈ rest.head?, b = '<'.toUInt8) :
    ∃ stack b, chain stack = tags ∧ b.draft = none ∧ run o src .content ⟨0, s ++ t ++ rest⟩ {}
        = run o src .content ⟨(s ++ t).length, rest⟩ b ∧
      Closes o.void closer b ⟨nodes.reverse, stack, none⟩ := by
  obtain ⟨stack, rfl, hrun⟩ := @run_opens o src _ _ h (t ++ rest)
  rw [length_chain] at hroom
  obtain ⟨b, hdraft, hrun', hcloses, -⟩ :=
    @run_written o src _ _ _ hnodes rest hrest s.length [] stack hroom
  refine ⟨stack, b, rfl, hdraft, ?_, by simpa using hcloses⟩
  rw [List.append_assoc, hrun, hrun', List.length_append]

/-- A token that does not end a tag leaves alone the open elements, and an error there reports
them. -/
theorem take_of_isOpen (h : t.isOpen = true) :
    (∃ b', take o src b t = .ok b' ∧ b'.stack = b.stack) ∨
      ∃ e, take o src b t = .error e ∧ e.chain = chain b.stack := by
  obtain ⟨kind, text, pos⟩ := t
  obtain ⟨nodes, stack, _ | ⟨name, offset, attributes, _ | key⟩⟩ := b
  · cases kind with
    | tagName => exact .inl ⟨_, rfl, rfl⟩
    | key | value | fault => exact .inr ⟨_, rfl, rfl⟩
    | _ => contradiction
  · cases kind with
    | key => exact .inl ⟨_, rfl, rfl⟩
    | tagName | value | fault => exact .inr ⟨_, rfl, rfl⟩
    | _ => contradiction
  · cases kind with
    | value => exact .inl ⟨_, rfl, rfl⟩
    | tagName | key | fault => exact .inr ⟨_, rfl, rfl⟩
    | _ => contradiction

theorem chain_of_isOpen {tokens : List Token} (h : ∀ t ∈ tokens, t.isOpen = true)
    (herror : tokens.foldlM (take o src) b = .error e) : e.chain = chain b.stack := by
  induction tokens generalizing b with
  | nil => contradiction
  | cons t tokens ih =>
    obtain ⟨ht, htokens⟩ := List.forall_mem_cons.mp h
    rw [List.foldlM_cons] at herror
    obtain ⟨b', htake, hstack⟩ | ⟨e', htake, hchain⟩ := take_of_isOpen ht
    · rw [htake] at herror
      rw [← hstack]
      exact ih htokens herror
    · rw [htake] at herror
      obtain rfl := Except.error.inj herror
      exact hchain

/-- A start tag that comes to its end with as many elements open as are allowed is refused. -/
theorem run_tooDeep {tag : StartTag} {u : Bytes} (h : tag.Written u) (rest : Bytes) (pos : Nat)
    (nodes : List Node) (hfull : o.maxDepth ≤ stack.length) :
    run o src .content ⟨pos, u ++ Bytes.utf8 ">" ++ rest⟩ ⟨nodes, stack, none⟩
      = .error (failure src stack pos (tag.name.length + 1) (.tooDeep o.maxDepth)) := by
  have hstop : Bytes.Stops isNamePart (Bytes.utf8 ">" ++ rest) :=
    Bytes.stops_cons (by decide) (by decide) _
  obtain ⟨v, w, rfl, hw, htag⟩ := run_startTag (o := o) h hstop pos nodes stack
  rw [List.append_assoc _ _ rest, htag, ← List.append_assoc w,
    run_of_emit (Token.step_of_reads (.tagEnd hw))]
  simp only [take, takeInTag, takeTagEnd, if_neg (Nat.not_lt_of_le hfull)]
  rfl

theorem closeTo_of_head {void : NameSet} {name : Bytes} {nodes : List Node}
    (h : ∀ e ∈ stack.head?, e.tag.name ∉ void ∧ e.tag.name ≠ name) :
    closeTo void name nodes stack = .error stack := by
  rcases stack with _ | ⟨e, stack⟩
  · rfl
  · obtain ⟨hvoid, hname⟩ := h e rfl
    rw [closeTo, if_neg hname, if_neg (mt NameSet.has_iff.mp hvoid)]

/-- **Where a text is refused for its structure, that is the error**: a closing tag that does not
match or an element that is too deep is found where it stands, and not before. -/
theorem run_of_failsAt {tags : List StartTag} {f : Fault} {offset length : Nat}
    (h : Document.FailsAt o src tags f offset length)
    (hkind : f.kind = .mismatchedClose ∨ f.kind = .tooDeep) :
    run o src .content ⟨0, src⟩ {} = .error ⟨f, offset, length, tags, src⟩ := by
  cases h with
  | @mismatchedClose front name w rest hsrc hfront hname hw hlast =>
    obtain ⟨s, t, nodes, rfl, hopens, hnodes, hroom⟩ := hfront
    obtain ⟨stack, b, rfl, hdraft, hrun, hcloses⟩ :=
      @run_opens_written o src _ _ _ _ _ hopens hnodes hroom
        (Bytes.utf8 "</" ++ name ++ w ++ Bytes.utf8 ">" ++ rest) (by simp [utf8_openClosing])
    have hclose : closeTo o.void name b.nodes b.stack = .error stack := by
      refine Eq.trans hcloses (closeTo_of_head fun e he => hlast e.tag ?_)
      rw [getLast?_chain, Option.mem_def.mp he]
      rfl
    have hagrees : Agrees src .content b.draft := hdraft ▸ .content
    rw [← hsrc, (Refused.mismatchedClose hname hw hclose).run_eq hagrees] at hrun
    rw [hrun, failure, getLast?_chain, Option.map_map]
    rfl
  | @tooDeep tag front u rest hsrc hfront htag hfull =>
    obtain ⟨s, t, nodes, rfl, hopens, hnodes, hroom⟩ := hfront
    have hhead : ∀ b ∈ (u ++ Bytes.utf8 ">" ++ rest).head?, b = '<'.toUInt8 := by
      rw [List.append_assoc]
      exact head_startTag htag
    obtain ⟨stack, rfl, hrun⟩ := @run_opens_complete o src _ _ _ _ hopens hnodes hroom _ hhead
    rw [length_chain] at hfull
    rw [← hsrc, run_tooDeep htag rest _ _ (Nat.le_of_eq hfull.symm)] at hrun
    exact hrun
  | _ => simp [Fault.kind] at hkind

/-- **The elements open where a text is refused are those that the error reports.** -/
theorem chain_of_openAt {tags : List StartTag} {offset : Nat}
    (h : Document.OpenAt o src tags offset)
    (herror : run o src .content ⟨0, src⟩ {} = .error e) : e.chain = tags := by
  cases h with
  | @unfinished nodes s t rest offset hsrc h hnodes hroom hrest hoffset =>
    have hhead : ∀ b ∈ rest.head?, b = '<'.toUInt8 := by
      obtain ⟨tail, rfl⟩ := hrest.begun
      simp [utf8_open]
    obtain ⟨stack, rfl, hrun⟩ := @run_opens_complete o src _ _ _ _ h hnodes hroom rest hhead
    rw [← hsrc, herror] at hrun
    exact chain_of_isOpen (isOpen_of_unfinished hrest) hrun.symm
  | @startTag nodes tag s t u rest hsrc h hnodes hroom htag hfull =>
    have hfails := Document.FailsAt.tooDeep hsrc ⟨s, t, nodes, rfl, h, hnodes, hroom⟩ htag hfull
    obtain rfl := Except.error.inj (herror.symm.trans (run_of_failsAt hfails (.inr rfl)))
    rfl
  | @closeTag nodes s t name w rest hsrc h hnodes hroom hname hw hlast =>
    have hfails := Document.FailsAt.mismatchedClose hsrc ⟨s, t, nodes, rfl, h, hnodes, hroom⟩ hname
      hw hlast
    obtain rfl := Except.error.inj (herror.symm.trans (run_of_failsAt hfails (.inl rfl)))
    rfl
  | @finish nodes s t hsrc h hnodes hroom hlast =>
    obtain ⟨stack, b, rfl, hdraft, hrun, hcloses⟩ := @run_opens_written o src _ _ _ _ _ h hnodes
      hroom [] (by simp)
    rw [List.append_nil, ← hsrc, herror] at hrun
    rcases stack with _ | ⟨e', stack⟩
    · -- Nothing is open, so that the text would not be refused.
      have hclose : closeAll o.void b.nodes b.stack = .ok nodes.reverse := hcloses
      have hhalt : Token.step .content ⟨src.length, []⟩ = .halt ⟨.finish, [], src.length⟩ := rfl
      rw [run_of_halt hhalt, take, hdraft] at hrun
      simp only [takeInContent, takeFinish, hclose] at hrun
      contradiction
    · have hvoid : e'.tag.name ∉ o.void := hlast _ (by rw [getLast?_chain]; rfl)
      have hclose : closeAll o.void b.nodes b.stack = .error (e', stack) := by
        refine Eq.trans hcloses ?_
        rw [closeAll, if_neg (mt NameSet.has_iff.mp hvoid)]
      have hagrees : Agrees src .content b.draft := hdraft ▸ .content
      rw [(Refused.unclosed hclose).run_eq hagrees] at hrun
      obtain rfl := Except.error.inj hrun
      rfl

end Builder

namespace Document

variable {o : ParseOptions} {src : Bytes} {chain : List StartTag} {e : ParseError}

/-- **An error says for what a text is refused, and where.** -/
theorem failsAt_of_parse (h : parse o src = .error e) :
    e.source = src ∧ FailsAt o src e.chain e.fault e.offset e.length := by
  obtain ⟨m, c, b, hreached, hrefused⟩ := parse_eq_error_iff.mp h
  refine ⟨?_, hreached.failsAt hrefused⟩
  cases hrefused <;> rfl

/-- **A closing tag that does not match, or an element that is too deep, is reported exactly where
it is.** -/
theorem failsAt_iff {f : Fault} {offset length : Nat}
    (hkind : f.kind = .mismatchedClose ∨ f.kind = .tooDeep) :
    parse o src = .error ⟨f, offset, length, chain, src⟩ ↔ FailsAt o src chain f offset length := by
  constructor
  · intro h
    exact (failsAt_of_parse h).2
  · intro h
    rw [parse_eq_run, Builder.run_of_failsAt h hkind]
    rfl

/-- An element is too deep at its own start tag, not at that of the element around it. -/
example : ¬ FailsAt ⟨.empty, 1⟩ (Bytes.utf8 "<a><b>") [⟨Bytes.utf8 "a", []⟩] (.tooDeep 1) 0 2 := by
  rw [← failsAt_iff (.inr rfl)]
  decide +kernel

/-- **An error reports the elements that are open where it is, and no others.** -/
theorem openAt_iff (h : parse o src = .error e) :
    OpenAt o src chain e.offset ↔ chain = e.chain := by
  constructor
  · intro hopen
    rw [parse_eq_run, Except.map_eq_error_iff] at h
    exact (Builder.chain_of_openAt hopen h).symm
  · rintro rfl
    exact (failsAt_of_parse h).2.openAt

theorem OpenAt.opens {offset : Nat} (h : OpenAt o src chain offset) : ∃ s, Opens o chain s := by
  obtain ⟨-, h, -⟩ | ⟨-, h, -⟩ | ⟨-, h, -⟩ | ⟨-, h, -⟩ := h
  all_goals exact ⟨_, h⟩

/-- **The outline of an error shows the elements that are open at it.**  It is empty just if there
are none; otherwise it is a document of these elements, each inside the one before. -/
theorem context_of_parse (h : parse o src = .error e) :
    ∃ chain, (∀ chain', OpenAt o src chain' e.offset ↔ chain' = chain) ∧
      (e.context = [] ↔ chain = []) ∧
      (chain ≠ [] → ∃ d n, parse o e.context = .ok d ∧ Node.significant d = [n] ∧
        n.IsChain (chain.map (·.name))) := by
  refine ⟨e.chain, fun _ => openAt_iff h, Outline.render_eq_nil_iff, fun hne => ?_⟩
  obtain ⟨s, hopens⟩ := ((openAt_iff h).mpr rfl).opens
  exact Outline.parse_render hne hopens.written hopens.length_le

/-- A closing tag ends a void element and then does not match.  Of a key that occurs twice, the
outline shows the last value. -/
theorem context_of_parse_void :
    ∃ src e, parse {} src = .error e ∧
      e.context = Bytes.utf8 "<p:a k=\"&lt;é\">\n    <b>...</b>\n</p:a>\n" ∧
      ∃ chain, (∀ chain', OpenAt {} src chain' e.offset ↔ chain' = chain) ∧
        (e.context = [] ↔ chain = []) ∧
        (chain ≠ [] → ∃ d n, parse {} e.context = .ok d ∧ Node.significant d = [n] ∧
          n.IsChain (chain.map (·.name))) := by
  have h : parse {} (Bytes.utf8 "<p:a k=\"1\" k=\"<é\"><i>x</i><b><br></q>") =
      .error ⟨.mismatchedClose (Bytes.utf8 "q") (some (Bytes.utf8 "b")), 34, 4,
        [⟨Bytes.utf8 "p:a", [⟨Bytes.utf8 "k", Bytes.utf8 "1"⟩, ⟨Bytes.utf8 "k", Bytes.utf8 "<é"⟩]⟩,
          ⟨Bytes.utf8 "b", []⟩], Bytes.utf8 "<p:a k=\"1\" k=\"<é\"><i>x</i><b><br></q>"⟩ := by
    decide +kernel
  exact ⟨_, _, h, by decide +kernel, context_of_parse h⟩

end Document

end LayoutMarkup

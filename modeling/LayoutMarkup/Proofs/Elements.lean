import LayoutMarkup.Proofs.Layout

/-!
# Proofs/Elements — the ways to print an element

An element is running text as a whole, or it has its children between its tags: nothing, a single
comment or text, or all of them one below the other.  Which of these it is depends on the gist of
the children (`block_element`); what its tags look like depends on its attributes in canonical form
and order.  For each way there is a lemma that says what is read from it, and together they make the
round trip of every node (`exists_laid`).
-/

namespace LayoutMarkup

namespace Canonical

variable {v : Vocabulary} {unit : Bytes} {depth : Nat}

/-! ## Lines with plain attributes -/

/-- The lines of several attributes as they stand. -/
def pairLines (depth : Nat) (closing : Bytes) : List Attribute → List Line
  | [] => []
  | [a] => [.indented (depth + 1) (pairText a ++ closing)]
  | a :: b :: as => .indented (depth + 1) (pairText a) :: pairLines depth closing (b :: as)

/-- The lines of a start tag with its attributes as they stand. -/
def plainTag (depth : Nat) (name : Bytes) (as : List Attribute) (closing : Bytes) : List Line :=
  if as.length ≤ 1 then [.indented depth (tagText name as ++ closing)]
  else .indented depth (Bytes.utf8 "<" ++ name) :: pairLines depth closing as

/-- An element on a single line, with its attributes as they stand. -/
def plainLine (depth : Nat) (name : Bytes) (as : List Attribute) (content : Bytes) : List Line :=
  [.indented depth (tagText name as ++ Bytes.utf8 ">" ++ content ++ closingTag name)]

/-- An element with lines between its tags and its attributes as they stand. -/
def plainBlock (depth : Nat) (name : Bytes) (as : List Attribute) (content : List Line) :
    List Line :=
  plainTag depth name as (Bytes.utf8 ">") ++ (content ++ [.indented depth (closingTag name)])

/-- An element with nothing in it and its attributes as they stand. -/
def plainHollow (depth : Nat) (name : Bytes) (as : List Attribute) : List Line :=
  if as.length ≤ 1 then plainTag depth name as (Bytes.utf8 "/>")
  else plainTag depth name as [] ++ [.indented depth (Bytes.utf8 "/>")]

/-- The lines of an element that is not running text as a whole, with its attributes as they stand,
given the gist of its children and their lines. -/
def arranged (v : Vocabulary) (depth : Nat) (name : Bytes) (as : List Attribute) (gists : List Gist)
    (inner : Bool → List Line) : List Line :=
  match gists, decide (1 < as.length) with
  | [], _ => plainHollow depth name as
  | [.comment body], false => plainLine depth name as (commentText body)
  | [.text words], false => plainLine depth name as ((Bytes.utf8 " ").intercalate words)
  | [.text words], true =>
    plainBlock depth name as (if v.rawText.has name then inner true
      else [.blank, .indented (depth + 1) ((Bytes.utf8 " ").intercalate words)])
  | _, multi => plainBlock depth name as (inner multi)

/-- All ways to arrange an element with something in it. -/
theorem arranged_cases (v : Vocabulary) (depth : Nat) (name : Bytes) (as : List Attribute)
    {gists : List Gist} (h : gists ≠ []) :
    (∃ body, gists = [.comment body] ∧
      ∀ inner, arranged v depth name as gists inner = plainLine depth name as (commentText body)) ∨
    (∃ words, gists = [.text words] ∧ ∀ inner, arranged v depth name as gists inner
      = plainLine depth name as ((Bytes.utf8 " ").intercalate words)) ∨
    (∃ words, gists = [.text words] ∧ 1 < as.length ∧ v.rawText.has name = false) ∨
    ∀ inner, arranged v depth name as gists inner
      = plainBlock depth name as (inner (decide (1 < as.length))) := by
  obtain ⟨g, gs, rfl⟩ := List.exists_cons_of_ne_nil h
  simp only [arranged]
  rcases hmulti : decide (1 < as.length) with _ | _ <;> rcases g with _ | words | body <;>
    rcases gs with _ | ⟨g', gs⟩
  case false.text.nil => exact .inr (.inl ⟨words, rfl, fun _ => rfl⟩)
  case false.comment.nil => exact .inl ⟨body, rfl, fun _ => rfl⟩
  case true.text.nil =>
    cases hraw : v.rawText.has name with
    | true => exact .inr (.inr (.inr fun _ => rfl))
    | false => exact .inr (.inr (.inl ⟨words, rfl, of_decide_eq_true hmulti, rfl⟩))
  all_goals exact .inr (.inr (.inr fun _ => rfl))

/-- Tidying keeps the number of attributes. -/
theorem length_tidyAttributes (v : Vocabulary) (as : List Attribute) :
    (tidyAttributes v as).length = as.length := by
  rw [tidyAttributes, List.length_map, (perm_sortAttributes as).length_eq]

theorem attributeLines_eq (closing : Bytes) (as : List Attribute) :
    attributeLines v depth closing as
      = pairLines depth closing (as.map fun a => ⟨a.key, value v a⟩) := by
  fun_induction attributeLines v depth closing as with
  | case1 => rfl
  | case2 a => rfl
  | case3 a b as ih =>
    rw [ih]
    rfl

theorem tagLines_eq (name closing : Bytes) (as : List Attribute) :
    tagLines v depth name as closing = plainTag depth name (tidyAttributes v as) closing := by
  rw [tagLines, plainTag, length_tidyAttributes, inlineTag_eq, attributeLines_eq]
  rfl

/-- **How an element is printed depends on the gist of its children.** -/
theorem block_element (f : List Attribute → List (Bytes × List Bytes)) (name : Bytes)
    (as : List Attribute) (children : List Node) (selfClosing : Bool) :
    block v depth (.element name as children selfClosing)
      = if !decide (1 < as.length) && isVerbatim v name children then
          moveLines depth (inline v (.element name as children selfClosing))
        else arranged v depth name (tidyAttributes v as) (Node.gistAll f children)
          fun leading => stackShown leading true (shown v (depth + 1) children) := by
  have hstacked (leading : Bool) : stacked v (depth + 1) leading (siblings v (depth + 1) children)
      = stackShown leading true (shown v (depth + 1) children) := by
    rw [stacked, stack_eq]
    rfl
  rw [block]
  split
  · rfl
  · simp only [Node.gistAll_eq_map, arranged, plainLine, plainBlock, plainHollow, hollow, oneLine,
      enclosed, tagLines_eq, inlineTag_eq, length_tidyAttributes, hstacked]
    generalize Node.significant children = ns
    generalize decide (1 < as.length) = multi
    rcases ns with _ | ⟨n, _ | ⟨m, ns⟩⟩
    · rfl
    · cases n <;> cases multi <;> rfl
    · cases n <;> rfl

/-! ## Tags can be read -/

theorem render_indented (text : Bytes) :
    (Line.indented depth text).render unit = Line.pad unit depth ++ text ++ [Bytes.lf] := rfl

/-- Blanks may stand behind the attributes. -/
theorem written_append_blanks {t : StartTag} {s w : Bytes} (h : t.Written s)
    (hw : ∀ b ∈ w, Bytes.isBlank b = true) : t.Written (s ++ w) := by
  obtain ⟨hname, has, hgap, hw'⟩ := h
  rw [List.append_assoc, List.append_assoc _ _ w]
  exact .intro hname has hgap (List.forall_mem_append.mpr ⟨hw', hw⟩)

section

variable (hunit : ∀ b ∈ unit, isIndent b = true)
include hunit

theorem isBlank_of_mem_pad (depth : Nat) : ∀ b ∈ Line.pad unit depth, Bytes.isBlank b = true :=
  fun b hb => isBlank_of_isIndent (isIndent_of_mem_pad hunit depth b hb)

theorem isBlank_of_mem_lf_pad (depth : Nat) :
    ∀ b ∈ Bytes.lf :: Line.pad unit depth, Bytes.isBlank b = true :=
  List.forall_mem_cons.mpr ⟨isBlank_lf, isBlank_of_mem_pad hunit depth⟩

/-- Attributes on lines of their own. -/
theorem exists_pairLines (depth : Nat) (closing : Bytes) {as : List Attribute} (hne : as ≠ [])
    (has : ∀ a ∈ as, a.Sound) :
    ∃ t, Bytes.lf :: Line.renderAll unit (pairLines depth closing as)
        = Bytes.lf :: t ++ closing ++ [Bytes.lf] ∧ Attribute.AllWritten as (Bytes.lf :: t) := by
  have hgap := isBlank_of_mem_lf_pad hunit (depth + 1)
  fun_induction pairLines depth closing as with
  | case1 => exact absurd rfl hne
  | case2 a =>
    have ha := pairText_written (List.forall_mem_singleton.mp has)
    refine ⟨Line.pad unit (depth + 1) ++ pairText a, ?_, ?_⟩
    · simp [render_indented]
    · have hall := Attribute.AllWritten.cons hgap ha .nil
      rwa [List.append_nil] at hall
  | case3 a b as ih =>
    obtain ⟨ha, has⟩ := List.forall_mem_cons.mp has
    obtain ⟨t, ht, hwritten⟩ := ih (by simp) has
    refine ⟨Line.pad unit (depth + 1) ++ pairText a ++ Bytes.lf :: t, ?_,
      .cons hgap (pairText_written ha) hwritten⟩
    rw [Line.renderAll_cons, render_indented, List.append_assoc, List.singleton_append, ht]
    simp

/-- **A start tag on one line or on several can be read.** -/
theorem exists_plainTag (depth : Nat) (closing : Bytes) {name : Bytes} {as : List Attribute}
    (hname : name.IsName) (has : ∀ a ∈ as, a.Sound) :
    ∃ s, Line.renderAll unit (plainTag depth name as closing)
        = Line.pad unit depth ++ s ++ closing ++ [Bytes.lf] ∧ StartTag.Written ⟨name, as⟩ s := by
  rw [plainTag]
  split
  · exact ⟨tagText name as, by simp [render_indented], startTag_written hname has⟩
  · next hlength =>
    have hne : as ≠ [] := by
      rintro rfl
      exact hlength (Nat.zero_le 1)
    obtain ⟨t, ht, hwritten⟩ := exists_pairLines hunit depth closing hne has
    refine ⟨Bytes.utf8 "<" ++ name ++ (Bytes.lf :: t ++ []), ?_, .intro hname hwritten ?_ (by simp)⟩
    · rw [Line.renderAll_cons, render_indented, List.append_assoc, List.singleton_append, ht]
      simp
    · intro b hb
      obtain rfl : Bytes.lf = b := by simpa using hb
      exact isBlank_lf

end

/-! ## Elements can be read -/

/-- An element without content can be read from a single tag. -/
theorem forms_hollow {name s : Bytes} {as : List Attribute} (htag : StartTag.Written ⟨name, as⟩ s)
    (void : NameSet) :
    (Node.element name as [] true).Forms void (s ++ Bytes.utf8 "/>") :=
  ⟨rfl, fun _ _ _ hns => .selfClosing htag hns⟩

/-- An element can be read from its tags and what stands between them. -/
theorem forms_closed {name s inner : Bytes} {as : List Attribute} {ms : List Node} {void : NameSet}
    (htag : StartTag.Written ⟨name, as⟩ s) (hinner : Loose void ms inner) :
    (Node.element name as (glue ms) false).Forms void
      (s ++ Bytes.utf8 ">" ++ inner ++ closingTag name) := by
  refine ⟨rfl, fun closer ns t hns => ?_⟩
  have hclosed := Document.Written.closed htag hinner.written (w := []) (by simp) hns
  simpa [closingTag] using hclosed

/-! ## What elements convey -/

section

variable {name : Bytes} {as : List Attribute} {children cs : List Node} {selfClosing b : Bool}

/-- An element conveys the same if its children do, and its attributes are tidy. -/
theorem Conveys.element (h : Conveys v children cs) (hb : b = false → selfClosing = false) :
    Conveys v [.element name as children selfClosing]
      [.element name (tidyAttributes v as) cs b] where
  gist := by
    rw [Node.gistAll_cons_of_not_text rfl, Node.gistAll_cons_of_not_text rfl, Node.gist, Node.gist,
      plainWords_tidyAttributes, h.gist]
    rfl
  nesting := by
    cases b with
    | true => exact Nat.zero_le _
    | false =>
      rw [hb rfl]
      simpa [Node.nestingAll, Node.nesting] using h.nesting
  carried := by
    have has : List.Forall₂ (Carried v) (sortAttributes as) (tidyAttributes v as) := by
      rw [tidyAttributes, List.forall₂_map_right_iff, List.forall₂_same]
      exact fun a _ => ⟨rfl, .inl rfl⟩
    exact List.rel_append (List.rel_append has h.carried) .nil
  sorted := by
    simp only [Node.attributesByAll, Node.attributesBy, sortAttributes_tidyAttributes, h.sorted, id]

/-- An element that is not running text as a whole is laid out if its arranged lines can be read as
an element with children that convey the same, and if these are arranged in the same way. -/
theorem Laid.of_arranged
    (hverbatim : (!decide (1 < as.length) && isVerbatim v name children) = false)
    (hconveys : Conveys v children cs)
    (htags : List.Forall₂ (Exact v) (tagsAmong v false children) (Node.startTagsAll cs))
    (hb : b = false → selfClosing = false)
    (htext : ∃ s, Line.renderAll unit (arranged v depth name (tidyAttributes v as)
          (Node.gistAll (canonicalWords v) children)
          fun leading => stackShown leading true (shown v (depth + 1) children))
        = Line.pad unit depth ++ s ++ [Bytes.lf] ∧
      ∀ void, (Node.element name (tidyAttributes v as) cs b).Forms void s)
    (hagain : (∀ a ∈ Node.attributesByAll id cs, Settled v a) →
      (arranged v depth name (tidyAttributes v as) (Node.gistAll (canonicalWords v) children)
          fun leading => stackShown leading true (shown v (depth + 1) cs))
        = arranged v depth name (tidyAttributes v as) (Node.gistAll (canonicalWords v) children)
          fun leading => stackShown leading true (shown v (depth + 1) children)) :
    Laid v unit depth (.element name as children selfClosing)
      (.element name (tidyAttributes v as) cs b) where
  text := by
    obtain ⟨s, hs, hform⟩ := htext
    refine ⟨false, _, s, rfl, ?_, hform⟩
    rw [Item.lines, block_element (canonicalWords v), hverbatim]
    exact hs
  conveys := hconveys.element hb
  tags := by
    rw [tagsAlone, hverbatim, Node.startTags]
    exact .cons (fun _ => rfl) htags
  again hset := by
    rw [Node.attributesBy, List.forall_mem_append] at hset
    have htidy := tidyAttributes_of_settled (sortAttributes_tidyAttributes v as) hset.1
    have hverbatim' : (!decide (1 < (tidyAttributes v as).length) && isVerbatim v name cs)
        = false := by
      rw [length_tidyAttributes, Node.isVerbatim_gist, hconveys.gist, ← Node.isVerbatim_gist,
        hverbatim]
    have hblock : block v depth (.element name (tidyAttributes v as) cs b)
        = block v depth (.element name as children selfClosing) := by
      rw [block_element plainWords, block_element (canonicalWords v), hverbatim, hverbatim', htidy,
        hconveys.gist]
      exact hagain hset.2
    rw [alone?, alone?, Item.alone?, Item.alone?, hblock]

/-! ## Content of a single kind -/

/-- Blank texts convey nothing. -/
theorem Conveys.of_significant {ns ms : List Node} (h : Conveys v (Node.significant ns) ms) :
    Conveys v ns ms where
  gist := by
    rw [h.gist, Node.gistAll_eq_map, Node.gistAll_eq_map, Node.significant, Node.significant,
      List.filter_filter]
    simp only [Bool.and_self]
  nesting := by
    refine h.nesting.trans (Node.nestingAll_le_iff.mpr fun n hn => ?_)
    exact Node.nesting_le_nestingAll (List.mem_filter.mp hn).1
  carried := by
    rw [← Node.attributesByAll_significant]
    exact h.carried
  sorted := h.sorted

theorem significant_eq_nil {f : List Attribute → List (Bytes × List Bytes)}
    (h : Node.gistAll f children = []) : Node.significant children = [] := by
  rw [Node.gistAll_eq_map] at h
  exact List.map_eq_nil_iff.mp h

/-- A single comment, as seen in the gist. -/
theorem significant_eq_comment {f : List Attribute → List (Bytes × List Bytes)} {body : Bytes}
    (h : Node.gistAll f children = [.comment body]) :
    Node.significant children = [.comment body] := by
  rw [Node.gistAll_eq_map, List.map_eq_singleton_iff] at h
  obtain ⟨n, hn, hgist⟩ := h
  cases n with
  | comment body' =>
    obtain rfl : body' = body := by simpa [Node.gist] using hgist
    exact hn
  | _ => cases hgist

/-- A single text, as seen in the gist. -/
theorem exists_significant_eq_text {f : List Attribute → List (Bytes × List Bytes)}
    {words : List Bytes} (h : Node.gistAll f children = [.text words]) :
    ∃ raw : Bytes, Node.significant children = [.text raw] ∧ raw.words = words := by
  rw [Node.gistAll_eq_map, List.map_eq_singleton_iff] at h
  obtain ⟨n, hn, hgist⟩ := h
  cases n with
  | text raw => exact ⟨raw, hn, by simpa [Node.gist] using hgist⟩
  | _ => cases hgist

theorem mem_of_significant_eq {n : Node} (h : Node.significant children = [n]) : n ∈ children := by
  have hmem : n ∈ Node.significant children := by rw [h]; exact List.mem_singleton_self n
  exact (List.mem_filter.mp hmem).1

/-- The words of a text with single spaces between them. -/
theorem conveys_collapse {raw : Bytes} (h : Node.significant children = [.text raw]) :
    Conveys v children [.text raw.collapse] := by
  refine Conveys.of_significant ⟨?_, Nat.zero_le _, ?_, rfl⟩
  · rw [h, Node.gistAll_text, Node.gistAll_text, Node.gistText, Node.gistText, Bytes.words_collapse]
    rfl
  · rw [h]
    exact .nil

/-- Where nothing but texts and comments is significant, there are no start tags. -/
theorem exact_nil (h : Node.startTagsAll (Node.significant children) = []) :
    List.Forall₂ (Exact v) (tagsAmong v false children) [] := by
  rw [Node.startTagsAll_significant, ← map_fst_tagsAmong (v := v) false, List.map_eq_nil_iff] at h
  rw [h]
  exact .nil

/-- Words with spaces between them can be read as text. -/
theorem loose_collapse {raw : Bytes} (hraw : '<'.toUInt8 ∉ raw) (void : NameSet) :
    Loose void [.text raw.collapse] raw.collapse := by
  refine .singleton_text fun hmem => ?_
  rcases mem_of_mem_intercalate hmem with hmem | ⟨w, hw, hmem⟩
  · exact absurd hmem (by decide)
  · exact hraw ((Bytes.mem_words hw).2.2 _ hmem)

/-! ## The ways to print an element -/

variable (hname : name.IsName) (has : ∀ a ∈ as, a.Sound) (hapart : Apart children)
  (hverbatim : (!decide (1 < as.length) && isVerbatim v name children) = false)

include hname has hapart hverbatim

/-- An element with its content on one line. -/
theorem laid_line {ms : List Node} {content : Bytes} (hopen : selfClosing = false)
    (hconveys : Conveys v children ms)
    (htags : List.Forall₂ (Exact v) (tagsAmong v false children) (Node.startTagsAll ms))
    (hms : ∀ void, Loose void ms content)
    (harranged : ∀ inner, arranged v depth name (tidyAttributes v as)
        (Node.gistAll (canonicalWords v) children) inner
      = plainLine depth name (tidyAttributes v as) content) :
    ∃ l, Laid v unit depth (.element name as children selfClosing) l := by
  refine ⟨_, .of_arranged (b := false) hverbatim (hconveys.glue hapart) ?_ (fun _ => hopen) ?_ ?_⟩
  · rwa [Node.startTagsAll_glue]
  · rw [harranged]
    refine ⟨_, ?_, fun void =>
      forms_closed (startTag_written hname (tidyAttributes_sound has)) (hms void)⟩
    simp [plainLine, render_indented]
  · intro _
    rw [harranged, harranged]

variable (hunit : ∀ b ∈ unit, isIndent b = true)
include hunit

/-- An element with its content on lines between the tags. -/
theorem laid_block {ms : List Node} {content : List Line} (hopen : selfClosing = false)
    (hconveys : Conveys v children ms)
    (htags : List.Forall₂ (Exact v) (tagsAmong v false children) (Node.startTagsAll ms))
    (hms : ∀ void, Loose void ms (Line.renderAll unit content))
    (harranged : (arranged v depth name (tidyAttributes v as)
        (Node.gistAll (canonicalWords v) children)
        fun leading => stackShown leading true (shown v (depth + 1) children))
      = plainBlock depth name (tidyAttributes v as) content)
    (hagain : (∀ a ∈ Node.attributesByAll id ms, Settled v a) →
      (arranged v depth name (tidyAttributes v as) (Node.gistAll (canonicalWords v) children)
          fun leading => stackShown leading true (shown v (depth + 1)
            ([.text [Bytes.lf]] ++ ms ++ [.text (Line.pad unit depth)])))
        = plainBlock depth name (tidyAttributes v as) content) :
    ∃ l, Laid v unit depth (.element name as children selfClosing) l := by
  have hall := ((Conveys.blanks blanks_lf).append hconveys).append
    (.blanks (blanks_pad hunit depth))
  rw [List.nil_append, List.append_nil] at hall
  have hblanks : Node.startTagsAll ([.text [Bytes.lf]] ++ ms ++ [.text (Line.pad unit depth)])
      = Node.startTagsAll ms := by
    rw [Node.startTagsAll_append, Node.startTagsAll_append]
    exact List.append_nil _
  refine ⟨_, .of_arranged (b := false) hverbatim (hall.glue hapart) ?_ (fun _ => hopen) ?_ ?_⟩
  · rwa [Node.startTagsAll_glue, hblanks]
  · obtain ⟨s, hs, htag⟩ :=
      exists_plainTag hunit depth (Bytes.utf8 ">") hname (tidyAttributes_sound (v := v) has)
    rw [harranged]
    refine ⟨_, ?_, fun void => forms_closed htag
      (((loose_lf void).append (hms void)).append (loose_pad hunit depth void))⟩
    rw [plainBlock, Line.renderAll_append, hs, Line.renderAll_append]
    simp [render_indented]
  · intro hset
    rw [Node.attributesByAll_glue, Node.attributesByAll_append, Node.attributesByAll_append] at hset
    have hsetms : ∀ a ∈ Node.attributesByAll id ms, Settled v a := fun a ha =>
      hset a (List.mem_append_left _ (List.mem_append_right _ ha))
    simp only [shown_glue]
    rw [hagain hsetms, harranged]

omit hapart in
/-- An element without content is a single tag. -/
theorem laid_hollow (hempty : Node.gistAll (canonicalWords v) children = []) :
    ∃ l, Laid v unit depth (.element name as children selfClosing) l := by
  have hconveys : Conveys v children [] := by
    refine .of_significant ?_
    rw [significant_eq_nil hempty]
    exact .nil
  have harranged (inner : Bool → List Line) : arranged v depth name (tidyAttributes v as) [] inner
      = plainHollow depth name (tidyAttributes v as) := rfl
  have hsound := tidyAttributes_sound (v := v) has
  refine ⟨_, .of_arranged (b := true) hverbatim hconveys ?_ (by simp) ?_ fun _ => ?_⟩
  · exact exact_nil (by rw [significant_eq_nil hempty]; rfl)
  · rw [hempty, harranged, plainHollow]
    split
    · obtain ⟨s, hs, htag⟩ := exists_plainTag hunit depth (Bytes.utf8 "/>") hname hsound
      exact ⟨_, by rw [hs, List.append_assoc _ s], forms_hollow htag⟩
    · obtain ⟨s, hs, htag⟩ := exists_plainTag hunit depth [] hname hsound
      refine ⟨_, ?_, forms_hollow (written_append_blanks htag (isBlank_of_mem_lf_pad hunit depth))⟩
      rw [Line.renderAll_append, hs]
      simp [render_indented]
  · rw [hempty, harranged, harranged]

/-- An element with a single text in it, and with more than one attribute, if it does not hold
running text. -/
theorem laid_text_block {raw : Bytes} (hopen : selfClosing = false)
    (htext : Node.significant children = [.text raw]) (hraw : '<'.toUInt8 ∉ raw)
    (hmulti : 1 < as.length) (hlayout : v.rawText.has name = false) :
    ∃ l, Laid v unit depth (.element name as children selfClosing) l := by
  have harranged (inner : Bool → List Line) : arranged v depth name (tidyAttributes v as)
      (Node.gistAll (canonicalWords v) children) inner
        = plainBlock depth name (tidyAttributes v as)
          [.blank, .indented (depth + 1) raw.collapse] := by
    rw [Node.gistAll_eq_map, htext, arranged.eq_def, length_tidyAttributes, decide_eq_true hmulti]
    simp only [List.map_cons, List.map_nil, Node.gist, hlayout]
    rfl
  refine laid_block hname has hapart hverbatim hunit hopen
    (conveys_onLines hunit true (depth + 1) (conveys_collapse htext)) ?_ (fun void => ?_)
    (harranged _) fun _ => harranged _
  · rw [startTagsAll_onLines]
    exact exact_nil (by rw [htext]; rfl)
  have hline : Line.renderAll unit [.indented (depth + 1) raw.collapse]
      = Line.pad unit (depth + 1) ++ raw.collapse ++ [Bytes.lf] := by simp [render_indented]
  exact loose_onLines hunit true void hline (loose_collapse hraw void)

/-- An element with its children one below the other. -/
theorem laid_stack (hopen : selfClosing = false) (hchildren : ∀ n ∈ children, n.Sound)
    (hlaid : ∀ n ∈ children, n.isText = false → ∃ l, Laid v unit (depth + 1) n l)
    (harranged : ∀ inner, arranged v depth name (tidyAttributes v as)
        (Node.gistAll (canonicalWords v) children) inner
      = plainBlock depth name (tidyAttributes v as) (inner (decide (1 < as.length)))) :
    ∃ l, Laid v unit depth (.element name as children selfClosing) l := by
  obtain ⟨ls, hls⟩ := exists_laidAll hunit hchildren hapart hlaid (decide (1 < as.length)) true
  refine laid_block hname has hapart hverbatim hunit hopen hls.conveys hls.tags hls.text
    (harranged _) ?_
  intro hset
  rw [hls.again hset _ _ blanks_lf (blanks_pad hunit depth), harranged]

end

/-! ## All of them -/

theorem hasComment_of_isVerbatim {name : Bytes} {children : List Node}
    (h : isVerbatim v name children = true) : Node.anyHasComment children = false := by
  rw [isVerbatim, Bool.and_eq_true, Bool.and_eq_true] at h
  have hall := List.all_eq_true.mp h.1.2
  clear h
  induction children with
  | nil => rfl
  | cons n ns ih =>
    obtain ⟨hn, hns⟩ := List.forall_mem_cons.mp hall
    rw [Node.anyHasComment, hasComment_of_isInline hn, ih hns]
    rfl

section

variable (hunit : ∀ b ∈ unit, isIndent b = true)
include hunit

/-- An element that is running text as a whole. -/
theorem laid_verbatim {name : Bytes} {as : List Attribute} {children : List Node}
    {selfClosing : Bool} (hsound : (Node.element name as children selfClosing).Sound)
    (hverbatim : (!decide (1 < as.length) && isVerbatim v name children) = true) :
    ∃ l, Laid v unit depth (.element name as children selfClosing) l := by
  have hpad := isIndent_of_mem_pad hunit depth
  obtain ⟨m, ht, hrun⟩ := exists_run_element (v := v) hpad hsound rfl
    (hasComment_of_isVerbatim (Bool.and_eq_true _ _ ▸ hverbatim).2)
  have hends : Ends (inline v (.element name as children selfClosing)) := by
    rw [inline_eq]
    exact ends_write (by rw [isText_tidy]; rfl)
  have hblock : block v depth (.element name as children selfClosing)
      = moveLines depth (inline v (.element name as children selfClosing)) := by
    rw [block_element plainWords, hverbatim]
    rfl
  refine ⟨m, ⟨false, _, writeAll [m], rfl, ?_, fun void => (hrun.loose void).forms ht⟩,
    hrun.conveys, ?_, fun hset => ?_⟩
  · rw [Item.lines, hblock, renderAll_moveLines unit depth fun _ => hends, hrun.text]
  · rw [tagsAlone, hverbatim, if_pos rfl, ← Node.startTagsAll_singleton,
      ← Node.startTagsAll_singleton m]
    exact hrun.conveys.exact_run
  · have htidy : tidyAll v [m] = [m] := hrun.tidy (by simpa [Node.attributesByAll] using hset)
    have hinline : inline v m = writeAll [m] := by
      rw [← htidy, ← inlineAll_eq, inlineAll, inlineAll, List.append_nil]
    -- The node that is read is an element with the same name, and running text as well.
    have hgist : m.gist plainWords
        = Node.gist (canonicalWords v) (.element name as children selfClosing) := by
      have h := hrun.conveys.gist
      rw [Node.gistAll_cons_of_not_text ht, Node.gistAll_cons_of_not_text rfl] at h
      exact (List.cons.inj h).1
    cases m with
    | element name' as' cs b =>
      simp only [Node.gist, Gist.element.injEq] at hgist
      obtain ⟨rfl, has, hcs⟩ := hgist
      have hlength : as'.length = as.length := by
        have h := congrArg List.length has
        rwa [← plainWords_tidyAttributes, plainWords, plainWords, List.length_map, List.length_map,
          length_tidyAttributes] at h
      have hblock' : block v depth (.element name' as' cs b)
          = moveLines depth (inline v (.element name' as' cs b)) := by
        rw [block_element plainWords, hlength, Node.isVerbatim_gist, hcs, ← Node.isVerbatim_gist,
          hverbatim]
        rfl
      rw [alone?, alone?, Item.alone?, Item.alone?, hblock, hblock', hinline, hrun.text,
        moveLines_shift unit depth hpad fun _ => hends]
    | text raw => cases ht
    | comment body => cases hgist

/-- **The lines of a node can be read as a node that conveys the same.** -/
theorem exists_laid {n : Node} (hsound : n.Sound) (ht : n.isText = false) (depth : Nat) :
    ∃ l, Laid v unit depth n l := by
  induction n using Node.induction generalizing depth with
  | text raw => cases ht
  | comment body => exact ⟨_, laid_comment hsound⟩
  | element name as children selfClosing ih =>
    cases hverbatim : !decide (1 < as.length) && isVerbatim v name children with
    | true => exact laid_verbatim hunit hsound hverbatim
    | false =>
      obtain _ | _ | ⟨hname, has, hchildren, hapart, hself⟩ := hsound
      have hlaid : ∀ n ∈ children, n.isText = false → ∃ l, Laid v unit (depth + 1) n l :=
        fun n hn ht => ih n hn (hchildren n hn) ht (depth + 1)
      by_cases hempty : Node.gistAll (canonicalWords v) children = []
      · exact laid_hollow hname has hverbatim hunit hempty
      have hopen : selfClosing = false := by
        by_contra hs
        rw [hself (by simpa using hs)] at hempty
        exact hempty rfl
      obtain ⟨body, hgists, harranged⟩ | ⟨words, hgists, harranged⟩ |
          ⟨words, hgists, hmulti, hlayout⟩ | harranged :=
        arranged_cases v depth name (tidyAttributes v as) hempty
      · have hbody := significant_eq_comment hgists
        have hconveys : Conveys v children [.comment body] := by
          refine .of_significant ?_
          rw [hbody]
          exact ⟨rfl, Nat.le_refl _, .nil, rfl⟩
        have hform (void : NameSet) : Loose void [.comment body] (commentText body ++ []) :=
          .node (forms_write void (hchildren _ (mem_of_significant_eq hbody)) rfl) .nil
        simp only [List.append_nil] at hform
        exact laid_line hname has hapart hverbatim hopen hconveys (exact_nil (by rw [hbody]; rfl))
          hform harranged
      · obtain ⟨raw, htext, rfl⟩ := exists_significant_eq_text hgists
        obtain ⟨-, hraw⟩ := hchildren _ (mem_of_significant_eq htext)
        exact laid_line hname has hapart hverbatim hopen (conveys_collapse htext)
          (exact_nil (by rw [htext]; rfl)) (loose_collapse hraw) harranged
      · obtain ⟨raw, htext, rfl⟩ := exists_significant_eq_text hgists
        obtain ⟨-, hraw⟩ := hchildren _ (mem_of_significant_eq htext)
        rw [length_tidyAttributes] at hmulti
        exact laid_text_block hname has hapart hverbatim hunit hopen htext hraw hmulti hlayout
      · rw [length_tidyAttributes] at harranged
        exact laid_stack hname has hapart hverbatim hunit hopen hchildren hlaid harranged

end

end Canonical

end LayoutMarkup

import LayoutMarkup.Proofs.Siblings

/-!
# Proofs/Layout — what is printed can be read

The lines of a node at a depth are the indentation, a form of some node that conveys the same, and a
line feed (`Laid`).  The lines of siblings consist of such forms with blanks between them
(`LaidAll`).  Outside running text, the attributes that are read are those that were printed
(`Exact`).  If the values that were printed are settled, the node that is read is printed in the
same way again.
-/

namespace LayoutMarkup

namespace Canonical

/-- The second start tag has the attributes of the first one in canonical form and order, unless
this one stands in running text. -/
def Exact (v : Vocabulary) (t : StartTag × Bool) (t' : StartTag) : Prop :=
  t.2 = false → t'.attributes = tidyAttributes v t.1.attributes

/-- The node `l` can be read from the lines of `n` at a depth, and is printed in the same way. -/
structure Laid (v : Vocabulary) (unit : Bytes) (depth : Nat) (n l : Node) : Prop where
  text : ∃ c lines s, alone? v depth n = some (c, lines) ∧
    Line.renderAll unit lines = Line.pad unit depth ++ s ++ [Bytes.lf] ∧ ∀ void, l.Forms void s
  conveys : Conveys v [n] [l]
  tags : List.Forall₂ (Exact v) (tagsAlone v n) l.startTags
  again : (∀ a ∈ l.attributesBy id, Settled v a) → alone? v depth l = alone? v depth n

/-- Texts made of blanks. -/
def Blanks (ns : List Node) : Prop := ∀ n ∈ ns, n.isBlank = true

/-- The nodes `ls` can be read from the lines of the siblings `ns` at a depth, and are printed in
the same way, whatever blanks stand around them. -/
structure LaidAll (v : Vocabulary) (unit : Bytes) (depth : Nat) (leading spaced : Bool)
    (ns ls : List Node) : Prop where
  text : ∀ void, Loose void ls (Line.renderAll unit (stackShown leading spaced (shown v depth ns)))
  conveys : Conveys v ns ls
  tags : List.Forall₂ (Exact v) (tagsAmong v false ns) (Node.startTagsAll ls)
  again : (∀ a ∈ Node.attributesByAll id ls, Settled v a) → ∀ bs cs, Blanks bs → Blanks cs →
    shown v depth (bs ++ ls ++ cs) = shown v depth ns

variable {v : Vocabulary} {unit : Bytes} {depth : Nat} {leading spaced : Bool}

/-! ## Blanks -/

/-- The text of an empty line, if there is one. -/
def gap (b : Bool) : List Node := if b then [.text [Bytes.lf]] else []

theorem blanks_gap (b : Bool) : Blanks (gap b) := by
  cases b
  · simp [gap, Blanks]
  · simp only [gap, Blanks, if_true, List.forall_mem_singleton]
    decide

/-- An empty line can be read as its text. -/
theorem loose_gap (b : Bool) (void : NameSet) :
    Loose void (gap b) (Line.renderAll unit (if b then [.blank] else [])) := by
  cases b
  · exact .nil
  · exact .singleton_text (by decide)

theorem loose_lf (void : NameSet) : Loose void [.text [Bytes.lf]] [Bytes.lf] :=
  .singleton_text (by decide)

theorem Blanks.append {bs cs : List Node} (hb : Blanks bs) (hc : Blanks cs) :
    Blanks (bs ++ cs) := List.forall_mem_append.mpr ⟨hb, hc⟩

theorem blanks_text {raw : Bytes} (h : ∀ b ∈ raw, Bytes.isBlank b = true) :
    Blanks [.text raw] := List.forall_mem_singleton.mpr (List.all_eq_true.mpr h)

theorem blanks_lf : Blanks [.text [Bytes.lf]] := blanks_gap true

/-- Only a text can be blank. -/
theorem isText_of_isBlank {n : Node} (h : n.isBlank = true) : ∃ raw : Bytes, n = .text raw := by
  cases n with
  | text raw => exact ⟨raw, rfl⟩
  | _ => cases h

/-- A blank text has no wording in it. -/
theorem isWording_of_isBlank {n : Node} (h : n.isBlank = true) : n.isWording = false := by
  obtain ⟨raw, rfl⟩ := isText_of_isBlank h
  rw [Node.isBlank] at h
  rw [Node.isWording, h]
  rfl

/-- Nothing is shown of blanks. -/
theorem filterMap_alone?_blanks {bs : List Node} (h : Blanks bs) :
    bs.filterMap (alone? v depth) = [] := by
  refine List.filterMap_eq_nil_iff.mpr fun n hn => ?_
  obtain ⟨raw, rfl⟩ := isText_of_isBlank (h n hn)
  rfl

/-- Blanks convey nothing. -/
theorem Conveys.blanks {bs : List Node} (h : Blanks bs) : Conveys v [] bs := by
  induction bs with
  | nil => exact .nil
  | cons n bs ih =>
    obtain ⟨hn, hbs⟩ := List.forall_mem_cons.mp h
    obtain ⟨raw, rfl⟩ := isText_of_isBlank hn
    exact (Conveys.blank (List.all_eq_true.mp hn)).append (ih hbs)

/-- There is wording in what is read exactly if there was any before. -/
theorem Conveys.any_isWording {ns ls : List Node} (h : Conveys v ns ls) :
    ls.any Node.isWording = ns.any Node.isWording := by
  rw [← Node.any_isWording_gist, h.gist, Node.any_isWording_gist]

/-- What is read flows exactly if the nodes did before. -/
theorem Conveys.all_isInline {ns ls : List Node} (h : Conveys v ns ls) :
    ls.all (isInline v) = ns.all (isInline v) := by
  rw [← Node.all_isInline_gist, h.gist, Node.all_isInline_gist]

/-- The start tags that are conveyed have the same names and as many attributes. -/
theorem Conveys.paired {ns ls : List Node} (h : Conveys v ns ls) :
    List.Forall₂ (fun t t' => t'.name = t.name ∧
        (sortAttributes t.attributes).length = t'.attributes.length)
      (Node.startTagsAll ns) (Node.startTagsAll ls) := by
  have hgist := congrArg Gist.labelsAll h.gist
  rw [Node.labelsAll_gistAll, Node.labelsAll_gistAll, ← List.forall₂_eq_eq_eq,
    List.forall₂_map_left_iff, List.forall₂_map_right_iff] at hgist
  refine hgist.flip.imp fun t t' heq => ?_
  obtain ⟨hname, hwords⟩ := Prod.mk.inj heq
  have hlength := congrArg List.length hwords
  rw [plainWords, canonicalWords, List.length_map, List.length_map] at hlength
  exact ⟨hname, hlength.symm⟩

/-- In running text, the start tags are only paired with each other. -/
theorem Conveys.exact_run {ns ls : List Node} (h : Conveys v ns ls) :
    List.Forall₂ (Exact v) ((Node.startTagsAll ns).map (·, true)) (Node.startTagsAll ls) := by
  rw [List.forall₂_map_left_iff]
  exact h.paired.imp fun _ _ _ hfalse => absurd hfalse.symm Bool.false_ne_true

/-- Running text is written node by node. -/
theorem inlineAll_append (ns ms : List Node) :
    inlineAll v (ns ++ ms) = inlineAll v ns ++ inlineAll v ms := by
  rw [inlineAll_eq, inlineAll_eq, inlineAll_eq, tidyAll_eq_map, List.map_append, writeAll_append,
    ← tidyAll_eq_map, ← tidyAll_eq_map]

/-- Blanks are written as blanks. -/
theorem isBlank_of_mem_inlineAll {bs : List Node} (h : Blanks bs) :
    ∀ b ∈ inlineAll v bs, Bytes.isBlank b = true := by
  induction bs with
  | nil => simp [inlineAll]
  | cons n bs ih =>
    obtain ⟨hn, hbs⟩ := List.forall_mem_cons.mp h
    obtain ⟨raw, rfl⟩ := isText_of_isBlank hn
    rw [inlineAll, inline, List.forall_mem_append]
    exact ⟨List.all_eq_true.mp hn, ih hbs⟩

/-- There is no comment in a node that flows. -/
theorem hasComment_of_isInline {n : Node} (h : isInline v n = true) : n.hasComment = false := by
  cases n with
  | text raw => rfl
  | comment body => cases h
  | element name as children selfClosing =>
    rw [isInline, Bool.and_eq_true] at h
    simpa using h.2

/-! ## Nodes that stand alone -/

/-- Nodes on lines of their own at a depth, with an empty line before them if `b` holds. -/
def onLines (unit : Bytes) (depth : Nat) (b : Bool) (ms : List Node) : List Node :=
  gap b ++ ([.text (Line.pad unit depth)] ++ ms ++ [.text [Bytes.lf]])

/-- The indentation and the line feeds around nodes have no start tags. -/
theorem startTagsAll_onLines (b : Bool) (ms : List Node) :
    Node.startTagsAll (onLines unit depth b ms) = Node.startTagsAll ms := by
  have hgap : Node.startTagsAll (gap b) = [] := by cases b <;> rfl
  simp only [onLines, Node.startTagsAll_append, hgap, Node.startTagsAll, Node.startTags,
    List.nil_append, List.append_nil]

theorem attributesByAll_onLines (g : List Attribute → List Attribute) (b : Bool) (ms : List Node) :
    Node.attributesByAll g (onLines unit depth b ms) = Node.attributesByAll g ms := by
  rw [Node.attributesByAll_eq_startTagsAll, startTagsAll_onLines,
    ← Node.attributesByAll_eq_startTagsAll]

/-- A comment can be read as it is. -/
theorem laid_comment {body : Bytes} (h : (Node.comment body).Sound) :
    Laid v unit depth (.comment body) (.comment body) where
  text := by
    refine ⟨true, [.indented depth (commentText body)], commentText body, rfl, ?_, fun void => ?_⟩
    · simp [Line.render, Bytes.lf]
      rfl
    · exact forms_write void h rfl
  conveys := ⟨rfl, Nat.le_refl _, .nil, rfl⟩
  tags := .nil
  again _ := rfl

section

variable (hunit : ∀ b ∈ unit, isIndent b = true)
include hunit

/-- The indentation is made of blanks. -/
theorem blanks_pad (depth : Nat) : Blanks [.text (Line.pad unit depth)] :=
  blanks_text fun b hb => isBlank_of_isIndent (isIndent_of_mem_pad hunit depth b hb)

/-- The indentation and the line feeds around nodes do not show. -/
theorem filterMap_alone?_onLines (b : Bool) (ms : List Node) :
    (onLines unit depth b ms).filterMap (alone? v depth) = ms.filterMap (alone? v depth) := by
  rw [onLines, List.filterMap_append, List.filterMap_append, List.filterMap_append,
    filterMap_alone?_blanks (blanks_gap b), filterMap_alone?_blanks (blanks_pad hunit depth),
    filterMap_alone?_blanks blanks_lf, List.nil_append, List.nil_append, List.append_nil]

theorem loose_pad (depth : Nat) (void : NameSet) :
    Loose void [.text (Line.pad unit depth)] (Line.pad unit depth) :=
  .singleton_text fun hmem => absurd (isIndent_of_mem_pad hunit depth _ hmem) (by decide)

/-- The indentation and the line feeds around nodes convey nothing. -/
theorem conveys_onLines {ns ms : List Node} (b : Bool) (depth : Nat) (h : Conveys v ns ms) :
    Conveys v ns (onLines unit depth b ms) := by
  have hall := (Conveys.blanks (blanks_gap b)).append
    (((Conveys.blanks (blanks_pad hunit depth)).append h).append (.blanks blanks_lf))
  rwa [List.nil_append, List.nil_append, List.append_nil] at hall

/-- What can be read from a text can be read from it on lines of its own. -/
theorem loose_onLines {lines : List Line} {s : Bytes} {ms : List Node} (b : Bool) (void : NameSet)
    (hlines : Line.renderAll unit lines = Line.pad unit depth ++ s ++ [Bytes.lf])
    (hms : Loose void ms s) : Loose void (onLines unit depth b ms)
      (Line.renderAll unit (if b then [.blank] else []) ++ Line.renderAll unit lines) := by
  rw [hlines]
  exact (loose_gap b void).append (((loose_pad hunit depth void).append hms).append
    (loose_lf void))

/-- What is laid out stands on lines of its own. -/
theorem Laid.loose {n l : Node} (h : Laid v unit depth n l) (leading spaced : Bool) :
    ∃ c lines, alone? v depth n = some (c, lines) ∧ ∀ void,
      Loose void (onLines unit depth (leading || (spaced && c)) [l])
        (Line.renderAll unit (stackShown leading spaced [(c, lines)])) := by
  obtain ⟨c, lines, s, halone, hlines, hform⟩ := h.text
  refine ⟨c, lines, halone, fun void => ?_⟩
  have hloose : Loose void [l] (s ++ []) := .node (hform void) .nil
  rw [List.append_nil] at hloose
  rw [stackShown, stackShown, List.append_nil, Line.renderAll_append]
  exact loose_onLines hunit _ void hlines hloose

/-! ## Siblings without wording -/

/-- Where there is no wording, the nodes are read one by one. -/
theorem exists_laidAll_alone {ns : List Node} (h : ∀ n ∈ ns, n.isWording = false)
    (hlaid : ∀ n ∈ ns, n.isText = false → ∃ l, Laid v unit depth n l) (leading spaced : Bool) :
    ∃ ls, (∀ void, Loose void ls (Line.renderAll unit
        (stackShown leading spaced (ns.filterMap (alone? v depth))))) ∧ Conveys v ns ls ∧
      List.Forall₂ (Exact v) (ns.flatMap (tagsAlone v)) (Node.startTagsAll ls) ∧
      ((∀ a ∈ Node.attributesByAll id ls, Settled v a) →
        ls.filterMap (alone? v depth) = ns.filterMap (alone? v depth)) := by
  induction ns generalizing leading with
  | nil => exact ⟨[], fun _ => .nil, .nil, .nil, fun _ => rfl⟩
  | cons n ns ih =>
    obtain ⟨hn, hns⟩ := List.forall_mem_cons.mp h
    obtain ⟨hlaidn, hlaidns⟩ := List.forall_mem_cons.mp hlaid
    cases ht : n.isText with
    | true =>
      obtain ⟨raw, rfl⟩ := Node.isText_iff.mp ht
      obtain ⟨ls, htext, hconveys, htags, hagain⟩ := ih hns hlaidns leading
      have hblank : (Node.text raw).isBlank = true := by
        rw [Node.isWording, Bool.not_eq_false'] at hn
        exact hn
      exact ⟨ls, htext, (Conveys.of_blank hblank).append hconveys, htags, hagain⟩
    | false =>
      obtain ⟨l, hl⟩ := hlaidn ht
      obtain ⟨c, lines, halone, hloose⟩ := hl.loose hunit leading spaced
      obtain ⟨ls, htext, hconveys, htags, hagain⟩ := ih hns hlaidns false
      refine ⟨onLines unit depth (leading || (spaced && c)) [l] ++ ls, fun void => ?_,
        (conveys_onLines hunit _ depth hl.conveys).append hconveys, ?_, fun hset => ?_⟩
      · rw [List.filterMap_cons_some halone, stackShown_cons, Line.renderAll_append]
        exact (hloose void).append (htext void)
      · rw [List.flatMap_cons, Node.startTagsAll_append, startTagsAll_onLines,
          Node.startTagsAll_singleton]
        exact List.rel_append hl.tags htags
      · rw [Node.attributesByAll_append, attributesByAll_onLines, Node.attributesByAll,
          Node.attributesByAll, List.append_nil, List.forall_mem_append] at hset
        rw [List.filterMap_append, filterMap_alone?_onLines hunit, hagain hset.2,
          List.filterMap_cons_some ((hl.again hset.1).trans halone),
          List.filterMap_cons_some halone]
        rfl

/-- **Where there is no wording, siblings are read one by one.** -/
theorem exists_laidAll_of_no_wording {ns : List Node} (h : ns.any Node.isWording = false)
    (hlaid : ∀ n ∈ ns, n.isText = false → ∃ l, Laid v unit depth n l) (leading spaced : Bool) :
    ∃ ls, LaidAll v unit depth leading spaced ns ls := by
  have hns : ∀ n ∈ ns, n.isWording = false := by simpa using h
  obtain ⟨ls, htext, hconveys, htags, hagain⟩ :=
    exists_laidAll_alone hunit hns hlaid leading spaced
  have hls : ∀ l ∈ ls, l.isWording = false := by simpa [h] using hconveys.any_isWording
  refine ⟨ls, fun void => ?_, hconveys, ?_, fun hset bs cs hbs hcs => ?_⟩
  · rw [shown_of_no_wording hns]
    exact htext void
  · rw [tagsAmong_of_no_wording hns]
    exact htags
  · have hall : ∀ n ∈ bs ++ ls ++ cs, n.isWording = false := by
      simp only [List.forall_mem_append]
      exact ⟨⟨fun n hn => isWording_of_isBlank (hbs n hn), hls⟩,
        fun n hn => isWording_of_isBlank (hcs n hn)⟩
    rw [shown_of_no_wording hall, shown_of_no_wording hns, List.filterMap_append,
      List.filterMap_append, filterMap_alone?_blanks hbs, filterMap_alone?_blanks hcs, hagain hset,
      List.nil_append, List.append_nil]

/-! ## Runs -/

/-- **A run is read as one stretch.** -/
theorem exists_laidAll_run {ns : List Node} (hsound : ∀ n ∈ ns, n.Sound) (hapart : Apart ns)
    (hinline : ∀ n ∈ ns, isInline v n = true) (hw : ns.any Node.isWording = true)
    (leading spaced : Bool) : ∃ ls, LaidAll v unit depth leading spaced ns ls := by
  have hpad := isIndent_of_mem_pad hunit depth
  obtain ⟨ms, hrun⟩ : ∃ ms, Run v _ _ ns ms := ⟨_, run_trimmed hpad hapart hsound fun n hn =>
    hasComment_of_isInline (hinline n hn)⟩
  have hends : Bytes.lf ∈ Bytes.trim Bytes.isBlank (inlineAll v ns) →
      Ends (Bytes.trim Bytes.isBlank (inlineAll v ns)) := fun h =>
    ends_trim (List.ne_nil_of_mem h)
  have hlines := renderAll_moveLines unit depth hends
  rw [← hrun.text] at hlines
  refine ⟨onLines unit depth (leading || (spaced && false)) ms, fun void => ?_,
    conveys_onLines hunit _ depth hrun.conveys, ?_, fun hset bs cs hbs hcs => ?_⟩
  · rw [shown_run hinline hw, stackShown, stackShown, List.append_nil, Line.renderAll_append]
    exact loose_onLines hunit _ void hlines (hrun.loose void)
  · rw [tagsAmong_run hinline false hw, startTagsAll_onLines]
    exact hrun.conveys.exact_run
  · rw [attributesByAll_onLines] at hset
    have hplain : inlineAll v ms = writeAll ms := by rw [inlineAll_eq, hrun.tidy hset]
    have hbefore := (hbs.append (blanks_gap (leading || (spaced && false)))).append
      (blanks_pad hunit depth)
    have hafter := blanks_lf.append hcs
    have hnodes : bs ++ onLines unit depth (leading || (spaced && false)) ms ++ cs
        = (bs ++ gap (leading || (spaced && false)) ++ [.text (Line.pad unit depth)]) ++ ms
          ++ ([.text [Bytes.lf]] ++ cs) := by
      simp only [onLines, List.append_assoc]
    rw [hnodes]
    have hall := ((Conveys.blanks hbefore).append hrun.conveys).append (.blanks hafter)
    rw [List.nil_append, List.append_nil] at hall
    have hflow := hall.all_isInline.trans (List.all_eq_true.mpr hinline)
    rw [shown_run (List.all_eq_true.mp hflow) (hall.any_isWording.trans hw), shown_run hinline hw,
      inlineAll_append, inlineAll_append, trim_blanks (isBlank_of_mem_inlineAll hbefore)
        (isBlank_of_mem_inlineAll hafter), hplain, hrun.text,
      trim_shift _ (deep_commonIndentation hends), moveLines_shift unit depth hpad hends]

/-! ## Siblings -/

/-- A node that does not flow parts the siblings, and what is read of them. -/
theorem LaidAll.parted {ns ms ls ks : List Node} {n l : Node}
    (hns : LaidAll v unit depth leading spaced ns ls) (hn : isInline v n = false)
    (hl : Laid v unit depth n l) (hms : LaidAll v unit depth false spaced ms ks) :
    ∃ ls, LaidAll v unit depth leading spaced (ns ++ n :: ms) ls := by
  obtain ⟨c, lines, halone, hloose⟩ :=
    hl.loose hunit (leading && (shown v depth ns).isEmpty) spaced
  have hwording {m : Node} (hm : isInline v m = false) : ∀ x ∈ [m], x.isWording = false := by
    cases m with
    | text raw => cases hm
    | _ => simp [Node.isWording]
  have hinline : isInline v l = false := by
    have := hl.conveys.all_isInline
    rwa [List.all_cons, List.all_cons, List.all_nil, Bool.and_true, Bool.and_true, hn] at this
  have hsplit : shown v depth (ns ++ n :: ms)
      = shown v depth ns ++ (c, lines) :: shown v depth ms := by
    rw [shown_append_cons hn, shown_of_no_wording (hwording hn),
      List.filterMap_cons_some halone, List.append_assoc]
    rfl
  refine ⟨ls ++ (onLines unit depth ((leading && (shown v depth ns).isEmpty) || (spaced && c)) [l]
    ++ ks), fun void => ?_, hns.conveys.append ((conveys_onLines hunit _ depth hl.conveys).append
      hms.conveys), ?_, fun hset bs cs hbs hcs => ?_⟩
  · rw [hsplit, stackShown_append, stackShown_cons, Line.renderAll_append, Line.renderAll_append]
    exact (hns.text void).append ((hloose void).append (hms.text void))
  · rw [tagsAmong_append_cons hn, Node.startTagsAll_append, Node.startTagsAll_append,
      startTagsAll_onLines, Node.startTagsAll_singleton]
    exact List.rel_append hns.tags (List.rel_append hl.tags hms.tags)
  · simp only [Node.attributesByAll_append, attributesByAll_onLines, List.forall_mem_append] at hset
    obtain ⟨hsetls, hsetl, hsetks⟩ := hset
    rw [Node.attributesByAll, Node.attributesByAll, List.append_nil] at hsetl
    -- The blanks before the node belong to the stretch before it, its line feed to the next one.
    have hnodes : bs ++ (ls ++ (onLines unit depth
          ((leading && (shown v depth ns).isEmpty) || (spaced && c)) [l] ++ ks)) ++ cs
        = (bs ++ ls ++ (gap ((leading && (shown v depth ns).isEmpty) || (spaced && c))
            ++ [.text (Line.pad unit depth)])) ++ l :: ([.text [Bytes.lf]] ++ ks ++ cs) := by
      simp only [onLines, List.append_assoc, List.cons_append, List.nil_append]
    rw [hnodes, shown_append_cons hinline,
      hns.again hsetls _ _ hbs ((blanks_gap _).append (blanks_pad hunit depth)),
      hms.again hsetks _ _ blanks_lf hcs, shown_of_no_wording (hwording hinline),
      List.filterMap_cons_some ((hl.again hsetl).trans halone), hsplit, List.append_assoc]
    rfl

/-- **The lines of siblings can be read as siblings that convey the same.** -/
theorem exists_laidAll {ns : List Node} (hsound : ∀ n ∈ ns, n.Sound) (hapart : Apart ns)
    (hlaid : ∀ n ∈ ns, n.isText = false → ∃ l, Laid v unit depth n l) (leading spaced : Bool) :
    ∃ ls, LaidAll v unit depth leading spaced ns ls := by
  have hstretch {ns : List Node} (hns : ∀ n ∈ ns, isInline v n = true) (hsound : ∀ n ∈ ns, n.Sound)
      (hapart : Apart ns) (hlaid : ∀ n ∈ ns, n.isText = false → ∃ l, Laid v unit depth n l)
      (leading : Bool) : ∃ ls, LaidAll v unit depth leading spaced ns ls := by
    cases hw : ns.any Node.isWording with
    | true => exact exists_laidAll_run hunit hsound hapart hns hw leading spaced
    | false => exact exists_laidAll_of_no_wording hunit hw hlaid leading spaced
  induction ns using siblings_induction v generalizing leading with
  | stretch ns hns => exact hstretch hns hsound hapart hlaid leading
  | cons ns n ms hns hn ih =>
    obtain ⟨hsoundns, hsoundms⟩ := List.forall_mem_append.mp hsound
    obtain ⟨hlaidns, hlaidms⟩ := List.forall_mem_append.mp hlaid
    obtain ⟨-, hsoundms⟩ := List.forall_mem_cons.mp hsoundms
    obtain ⟨hlaidn, hlaidms⟩ := List.forall_mem_cons.mp hlaidms
    obtain ⟨ls, hls⟩ := hstretch hns hsoundns (List.IsChain.left_of_append hapart) hlaidns leading
    obtain ⟨l, hl⟩ := hlaidn (isText_of_not_inline hn)
    obtain ⟨ks, hks⟩ := ih hsoundms (List.IsChain.right_of_append hapart).of_cons hlaidms false
    exact hls.parted hunit hn hl hks

end

end Canonical

end LayoutMarkup

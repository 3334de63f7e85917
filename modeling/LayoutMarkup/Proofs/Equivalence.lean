import LayoutMarkup.Proofs.Attributes

/-!
# Proofs/Equivalence — documents with the same canonical form

Two theorems say what the canonical form does not depend on:

* `Formatter.format_eq_of_reordered` — the order of attributes, as long as those with the same key
  keep theirs.
* `Formatter.format_eq_of_bareAll` — in documents without running text, blank texts, and whether an
  element without content is a single tag.

Attributes are only ever printed in the order of their keys, and of a node among its siblings only
its `view` matters.  Where no element flows with the text around it, no two siblings make one item,
so that what is shown of them is what is shown of each (`shown_eq_flatMap`), and of a blank text
nothing is shown.
-/

namespace LayoutMarkup

/-! ## Attributes in another order -/

/-- The attributes `bs` are `as` in another order; those with the same key keep theirs. -/
structure Attribute.Reordered (as bs : List Attribute) : Prop where
  perm : as.Perm bs
  same : ∀ a ∈ as, as.filter (·.key == a.key) = bs.filter (·.key == a.key)

instance (as bs : List Attribute) : Decidable (Attribute.Reordered as bs) :=
  decidable_of_iff
    (as.Perm bs ∧ ∀ a ∈ as, as.filter (·.key == a.key) = bs.filter (·.key == a.key))
    ⟨fun h => ⟨h.1, h.2⟩, fun h => ⟨h.perm, h.same⟩⟩

/-- The same nodes, with the attributes of each element in another order. -/
inductive Document.Reordered : Document → Document → Prop
  | nil : Reordered [] []
  | text {raw : Bytes} {ns ms : List Node} (hnodes : Reordered ns ms) :
      Reordered (.text raw :: ns) (.text raw :: ms)
  | comment {body : Bytes} {ns ms : List Node} (hnodes : Reordered ns ms) :
      Reordered (.comment body :: ns) (.comment body :: ms)
  | element {name : Bytes} {as bs : List Attribute} {children children' ns ms : List Node}
      {selfClosing : Bool} (hattributes : Attribute.Reordered as bs)
      (hchildren : Reordered children children') (hnodes : Reordered ns ms) :
      Reordered (.element name as children selfClosing :: ns)
        (.element name bs children' selfClosing :: ms)

/-- For any key at all, the attributes with that key come in the same order. -/
theorem Attribute.Reordered.filter_eq {as bs : List Attribute} (h : Reordered as bs) (key : Bytes) :
    as.filter (·.key == key) = bs.filter (·.key == key) := by
  by_cases hkey : ∃ a ∈ as, a.key = key
  · obtain ⟨a, ha, rfl⟩ := hkey
    exact h.same a ha
  · have hnone : ∀ a ∈ as, (a.key == key) = false := fun a ha =>
      beq_eq_false_iff_ne.mpr fun heq => hkey ⟨a, ha, heq⟩
    have hnone' : ∀ b ∈ bs, (b.key == key) = false := fun b hb =>
      hnone b (h.perm.mem_iff.mpr hb)
    rw [List.filter_eq_nil_iff.mpr (by simpa using hnone),
      List.filter_eq_nil_iff.mpr (by simpa using hnone')]

/-- The first attribute in the order of keys has the smallest key. -/
theorem Attribute.key_le_of_filter_eq {b c : Attribute} {bs cs : List Attribute}
    (hkeys : (b :: bs).Pairwise fun a a' => a.key ≤ a'.key)
    (h : ∀ key, (c :: cs).filter (·.key == key) = (b :: bs).filter (·.key == key)) :
    b.key ≤ c.key := by
  have hc : c ∈ (c :: cs).filter (·.key == c.key) := by simp
  rw [h] at hc
  obtain rfl | hc := List.mem_cons.mp (List.mem_filter.mp hc).1
  · exact List.le_refl c.key
  · exact (List.pairwise_cons.mp hkeys).1 c hc

/-- Attributes in the order of their keys are determined by those of each key. -/
theorem Attribute.eq_of_filter_eq : ∀ {bs cs : List Attribute},
    (bs.Pairwise fun a a' => a.key ≤ a'.key) → (cs.Pairwise fun a a' => a.key ≤ a'.key) →
    (∀ key, bs.filter (·.key == key) = cs.filter (·.key == key)) → bs = cs
  | [], [], _, _, _ => rfl
  | [], c :: cs, _, _, h => by simpa using h c.key
  | b :: bs, [], _, _, h => by simpa using h b.key
  | b :: bs, c :: cs, hbs, hcs, h => by
    have hkey : c.key = b.key := List.le_antisymm (key_le_of_filter_eq hcs h)
      (key_le_of_filter_eq hbs fun key => (h key).symm)
    have hfirst := h b.key
    rw [List.filter_cons_of_pos (by simp), List.filter_cons_of_pos (by simp [hkey])] at hfirst
    obtain ⟨rfl, -⟩ := List.cons.inj hfirst
    refine congrArg (b :: ·) (eq_of_filter_eq hbs.of_cons hcs.of_cons fun key => ?_)
    have hrest := h key
    rw [List.filter_cons, List.filter_cons] at hrest
    split at hrest
    · exact (List.cons.inj hrest).2
    · exact hrest

namespace Canonical

/-- Attributes in another order are sorted alike, if those with the same key keep their order. -/
theorem sortAttributes_congr {as bs : List Attribute} (h : Attribute.Reordered as bs) :
    sortAttributes as = sortAttributes bs := by
  have has := ordered_sortAttributes as
  have hbs := ordered_sortAttributes bs
  exact Attribute.eq_of_filter_eq has.keys hbs.keys fun key =>
    (has.same key).trans ((h.filter_eq key).trans (hbs.same key).symm)

variable {v : Vocabulary} {depth : Nat}

/-! ## What matters of a node -/

/-- What matters of a node among its siblings: how it comes out in running text, and what is shown
of it if it stands alone. -/
def view (v : Vocabulary) (depth : Nat) (n : Node) : Node × Option (Bool × List Line) :=
  (tidy v n, alone? v depth n)

theorem tidyAll_of_view {ns ms : List Node} (h : ns.map (view v depth) = ms.map (view v depth)) :
    tidyAll v ns = tidyAll v ms := by
  have htidy := congrArg (List.map Prod.fst) h
  rw [List.map_map, List.map_map] at htidy
  rw [tidyAll_eq_map, tidyAll_eq_map]
  exact htidy

theorem gistAll_of_tidyAll {ns ms : List Node} (h : tidyAll v ns = tidyAll v ms) :
    Node.gistAll (canonicalWords v) ns = Node.gistAll (canonicalWords v) ms := by
  rw [← gistAll_tidyAll, h, gistAll_tidyAll]

/-- Whether a node flows does not depend on the order of its attributes. -/
theorem isInline_of_tidy {n m : Node} (h : tidy v n = tidy v m) : isInline v n = isInline v m := by
  refine Node.isInline_congr (f := canonicalWords v) (g := canonicalWords v) ?_
  rw [← gist_tidy, h, gist_tidy]

/-- What is shown of a node that does not flow. -/
theorem shown_singleton {n : Node} (h : isInline v n = false) :
    shown v depth [n] = (alone? v depth n).toList := by
  have hwording : n.isWording = false := by
    cases n with
    | text raw => cases h
    | _ => rfl
  rw [shown_of_no_wording (List.forall_mem_singleton.mpr hwording), List.filterMap_cons]
  cases alone? v depth n <;> rfl

/-- A stretch is shown by its view. -/
theorem shown_congr_stretch {ns ms : List Node} (hns : ∀ n ∈ ns, isInline v n = true)
    (h : ns.map (view v depth) = ms.map (view v depth)) :
    shown v depth ns = shown v depth ms := by
  have htidy := tidyAll_of_view h
  have hgist := gistAll_of_tidyAll htidy
  have hms : ∀ m ∈ ms, isInline v m = true := by
    rw [← List.all_eq_true, ← Node.all_isInline_gist (f := canonicalWords v), ← hgist,
      Node.all_isInline_gist, List.all_eq_true]
    exact hns
  have hwording : ms.any Node.isWording = ns.any Node.isWording := by
    rw [← Node.any_isWording_gist (f := canonicalWords v), ← hgist, Node.any_isWording_gist]
  cases hw : ns.any Node.isWording with
  | true =>
    rw [shown_run hns hw, shown_run hms (hwording.trans hw), inlineAll_eq, htidy, inlineAll_eq]
  | false =>
    have halone (ls : List Node) :
        ls.filterMap (alone? v depth) = (ls.map (view v depth)).filterMap Prod.snd := by
      rw [List.filterMap_map]
      rfl
    rw [hw] at hwording
    rw [shown_of_no_wording (by simpa using hw), shown_of_no_wording (by simpa using hwording),
      halone, h, halone]

/-- **What is shown of siblings depends on the views of them.** -/
theorem shown_congr {ns ms : List Node} (h : ns.map (view v depth) = ms.map (view v depth)) :
    shown v depth ns = shown v depth ms := by
  induction ns using siblings_induction v generalizing ms with
  | stretch ns hns => exact shown_congr_stretch hns h
  | cons ns n ns' hns hn ih =>
    obtain ⟨ms, rest, rfl, hms, hrest⟩ := List.map_eq_append_iff.mp (h.symm.trans List.map_append)
    obtain ⟨m, ms', rfl, hview, hms'⟩ := List.map_eq_cons_iff.mp hrest
    obtain ⟨htidy, halone⟩ := Prod.mk.inj hview
    have hm : isInline v m = false := (isInline_of_tidy htidy).trans hn
    rw [shown_append_cons hn, shown_append_cons hm, shown_congr_stretch hns hms.symm,
      shown_singleton hn, shown_singleton hm, halone, ih hms'.symm]

/-- **The view of an element depends on its attributes in canonical form and order, and on the views
of its children.** -/
theorem view_element {as bs : List Attribute} {children children' : List Node}
    (has : tidyAttributes v as = tidyAttributes v bs)
    (hchildren : ∀ depth, children.map (view v depth) = children'.map (view v depth))
    (name : Bytes) (selfClosing : Bool) :
    view v depth (.element name as children selfClosing)
      = view v depth (.element name bs children' selfClosing) := by
  have htidyAll := tidyAll_of_view (hchildren 0)
  have hgist := gistAll_of_tidyAll htidyAll
  have hlength : as.length = bs.length := by
    rw [← length_tidyAttributes v as, has, length_tidyAttributes]
  have hempty := congrArg List.isEmpty hgist
  rw [Node.gistAll_eq_map, Node.gistAll_eq_map, List.isEmpty_map, List.isEmpty_map] at hempty
  have htidy : tidy v (.element name as children selfClosing)
      = tidy v (.element name bs children' selfClosing) := by
    rw [tidy, tidy, hempty, has, htidyAll]
  have hverbatim : isVerbatim v name children = isVerbatim v name children' := by
    rw [Node.isVerbatim_gist (f := canonicalWords v), hgist, ← Node.isVerbatim_gist]
  have hblock : block v depth (.element name as children selfClosing)
      = block v depth (.element name bs children' selfClosing) := by
    rw [block_element (canonicalWords v), block_element (canonicalWords v), hlength, hverbatim,
      inline_eq, htidy, ← inline_eq, has, hgist, shown_congr (hchildren (depth + 1))]
  rw [view, view, htidy, alone?, alone?, Item.alone?, Item.alone?, hblock]

/-- The order of attributes is not in view. -/
theorem view_of_reordered {d d' : Document} (h : Document.Reordered d d') :
    ∀ depth, d.map (view v depth) = d'.map (view v depth) := by
  induction h with
  | nil => exact fun _ => rfl
  | text _ ih | comment _ ih =>
    intro depth
    rw [List.map_cons, ih, List.map_cons]
  | element has _ _ ihchildren ih =>
    intro depth
    have htidy := congrArg (List.map fun a => (⟨a.key, value v a⟩ : Attribute))
      (sortAttributes_congr has)
    rw [List.map_cons, List.map_cons, view_element htidy ihchildren, ih]

end Canonical

/-! ## Documents without blank texts -/

mutual

/-- The node without blank texts in it; no element is a single tag. -/
def Node.bare : Node → Node
  | .element name attributes children _ => .element name attributes (Node.bareAll children) false
  | .text raw => .text raw
  | .comment body => .comment body

/-- The nodes without blank texts among them and in them. -/
def Node.bareAll : List Node → List Node
  | [] => []
  | n :: nodes => if n.isBlank then Node.bareAll nodes else n.bare :: Node.bareAll nodes

end

namespace Node

theorem bareAll_eq_map (ns : List Node) : bareAll ns = (significant ns).map bare := by
  induction ns with
  | nil => rfl
  | cons n ns ih =>
    rw [bareAll, significant, List.filter_cons, ih, significant]
    cases n.isBlank <;> rfl

theorem isText_bare (n : Node) : n.bare.isText = n.isText := by
  cases n <;> rfl

/-- Nothing but blank texts is left out. -/
theorem gistAll_bareAll (f : List Attribute → List (Bytes × List Bytes)) :
    ∀ ns : List Node, gistAll f (bareAll ns) = gistAll f ns
  | [] => rfl
  | .text raw :: ns => by
    have ih := gistAll_bareAll f ns
    rw [bareAll, gistAll]
    split
    · exact ih
    · next hblank => rw [gistAll, bare, if_neg hblank, ih]
  | .comment _ :: ns => by
    rw [bareAll, if_neg (by simp [isBlank]), bare, gistAll_cons_of_not_text rfl,
      gistAll_cons_of_not_text rfl, gistAll_bareAll f ns]
  | .element _ _ children _ :: ns => by
    rw [bareAll, if_neg (by simp [isBlank]), bare, gistAll_cons_of_not_text rfl,
      gistAll_cons_of_not_text rfl, gist, gist, gistAll_bareAll f children, gistAll_bareAll f ns]

theorem gist_bare (f : List Attribute → List (Bytes × List Bytes)) (n : Node) :
    n.bare.gist f = n.gist f := by
  cases n with
  | element name as children selfClosing => rw [bare, gist, gist, gistAll_bareAll]
  | _ => rfl

/-- Documents with the same gist have the same names in them. -/
theorem forall_name_of_gistAll {f : List Attribute → List (Bytes × List Bytes)} {ns ms : List Node}
    (h : gistAll f ns = gistAll f ms) {p : Bytes → Prop} (hns : ∀ t ∈ startTagsAll ns, p t.name) :
    ∀ t ∈ startTagsAll ms, p t.name := by
  intro t ht
  have hlabel : (t.name, f t.attributes) ∈ Gist.labelsAll (gistAll f ms) := by
    rw [labelsAll_gistAll]
    exact List.mem_map_of_mem ht
  rw [← h, labelsAll_gistAll] at hlabel
  obtain ⟨t', ht', heq⟩ := List.mem_map.mp hlabel
  rw [← (Prod.mk.inj heq).1]
  exact hns t' ht'

/-- Leaving out blank texts brings no two texts together. -/
theorem significant_apart {ns : List Node} (h : Apart ns) : Apart (significant ns) := by
  have hgists := gistAll_apart (f := fun _ => []) h
  rw [gistAll_eq_map, Gist.Apart, List.isChain_map] at hgists
  simp only [isText_gist] at hgists
  exact hgists

theorem bareAll_apart {ns : List Node} (h : Apart ns) : Apart (bareAll ns) := by
  rw [bareAll_eq_map]
  exact (significant_apart h).map isText_bare

end Node

namespace Canonical

variable {v : Vocabulary} {depth : Nat}

/-- **Where only texts flow, each node is shown on its own.** -/
theorem shown_eq_flatMap {ns : List Node} (hapart : Apart ns)
    (hflow : ∀ n ∈ ns, isInline v n = n.isText) :
    shown v depth ns = ns.flatMap fun n => shown v depth [n] := by
  induction ns with
  | nil => rfl
  | cons n ns ih =>
    obtain ⟨hn, hns⟩ := List.forall_mem_cons.mp hflow
    obtain ⟨hnext, hapart⟩ := List.isChain_cons.mp hapart
    have hseam : ∀ x ∈ [n].getLast?, ∀ y ∈ ns.head?, (isInline v x && isInline v y) = false := by
      intro x hx y hy
      obtain rfl : n = x := by simpa using hx
      rw [hn, hns y (List.mem_of_mem_head? hy)]
      cases ht : n.isText with
      | false => rfl
      | true => exact hnext y hy ht
    rw [List.flatMap_cons, ← ih hapart hns]
    exact shown_append hseam

/-- Nothing is shown of a blank text. -/
theorem shown_blank {n : Node} (h : n.isBlank = true) : shown v depth [n] = [] := by
  rw [shown_of_no_wording (List.forall_mem_singleton.mpr (isWording_of_isBlank h))]
  exact filterMap_alone?_blanks (List.forall_mem_singleton.mpr h)

theorem flatMap_significant (v : Vocabulary) (depth : Nat) (ns : List Node) :
    ((Node.significant ns).flatMap fun n => shown v depth [n])
      = ns.flatMap fun n => shown v depth [n] := by
  induction ns with
  | nil => rfl
  | cons n ns ih =>
    rw [Node.significant] at ih ⊢
    rw [List.filter_cons, List.flatMap_cons]
    cases hblank : n.isBlank with
    | true => rw [shown_blank hblank, List.nil_append, ← ih]; rfl
    | false => rw [← ih]; rfl

/-- Only texts flow where no element holds running text. -/
theorem isInline_eq_isText {n : Node} (h : ∀ t ∈ n.startTags, v.rawText.has t.name = false) :
    isInline v n = n.isText := by
  cases n with
  | text raw => rfl
  | comment body => rfl
  | element name as children selfClosing =>
    rw [isInline, h ⟨name, as⟩ List.mem_cons_self]
    rfl

theorem shown_bareAll_of_forall {ns : List Node} (hapart : Apart ns)
    (hplain : ∀ n ∈ ns, ∀ t ∈ n.startTags, v.rawText.has t.name = false)
    (h : ∀ n ∈ ns, shown v depth [n.bare] = shown v depth [n]) :
    shown v depth (Node.bareAll ns) = shown v depth ns := by
  have hflow : ∀ n ∈ ns, isInline v n = n.isText := fun n hn => isInline_eq_isText (hplain n hn)
  have hbare : ∀ n ∈ Node.bareAll ns, isInline v n = n.isText := by
    rw [Node.bareAll_eq_map, List.forall_mem_map]
    intro n hn
    rw [Node.isInline_congr (Node.gist_bare plainWords n), Node.isText_bare]
    exact hflow n (List.mem_filter.mp hn).1
  rw [shown_eq_flatMap (Node.bareAll_apart hapart) hbare, shown_eq_flatMap hapart hflow,
    ← flatMap_significant v depth ns, Node.bareAll_eq_map, List.flatMap_map]
  exact List.flatMap_congr fun n hn => h n (List.mem_filter.mp hn).1

/-- **Without running text, blank texts do not show.** -/
theorem shown_bare {n : Node} (hsound : n.Sound)
    (h : ∀ t ∈ n.startTags, v.rawText.has t.name = false) (depth : Nat) :
    shown v depth [n.bare] = shown v depth [n] := by
  induction n using Node.induction generalizing depth with
  | text raw => rfl
  | comment body => rfl
  | element name as children selfClosing ih =>
    obtain _ | _ | ⟨-, -, hchildren, hapart, -⟩ := hsound
    obtain ⟨hname, hinner⟩ := List.forall_mem_cons.mp h
    have hplain : ∀ n ∈ children, ∀ t ∈ n.startTags, v.rawText.has t.name = false :=
      fun n hn t ht => hinner t (Node.mem_startTagsAll.mpr ⟨n, hn, ht⟩)
    have hshown : shown v (depth + 1) (Node.bareAll children) = shown v (depth + 1) children :=
      shown_bareAll_of_forall hapart hplain fun n hn =>
        ih n hn (hchildren n hn) (hplain n hn) (depth + 1)
    have hverbatim (cs : List Node) : isVerbatim v name cs = false := by
      rw [isVerbatim, hname]
      rfl
    have hblock : block v depth (.element name as (Node.bareAll children) false)
        = block v depth (.element name as children selfClosing) := by
      rw [block_element plainWords, block_element plainWords, hverbatim, hverbatim,
        Node.gistAll_bareAll, hshown, Bool.and_false]
      rfl
    have hinline := isInline_eq_isText h
    have hbare : isInline v (.element name as (Node.bareAll children) false) = false := by
      have hgist := Node.gist_bare plainWords (.element name as children selfClosing)
      exact (Node.isInline_congr hgist).trans hinline
    rw [Node.bare, shown_singleton hbare, shown_singleton hinline, alone?, alone?, Item.alone?,
      Item.alone?, hblock]

/-- **Blank texts do not show in a document without running text.** -/
theorem print_bareAll {s : Style} {d : Document} (hsound : ∀ n ∈ d, n.Sound) (hapart : Apart d)
    (h : ∀ t ∈ Node.startTagsAll d, s.vocabulary.rawText.has t.name = false) :
    print s (Node.bareAll d) = print s d := by
  have hplain : ∀ n ∈ d, ∀ t ∈ n.startTags, s.vocabulary.rawText.has t.name = false :=
    fun n hn t ht => h t (Node.mem_startTagsAll.mpr ⟨n, hn, ht⟩)
  have hshown : shown s.vocabulary 0 (Node.bareAll d) = shown s.vocabulary 0 d :=
    shown_bareAll_of_forall hapart hplain fun n hn => shown_bare (hsound n hn) (hplain n hn) 0
  rw [print_eq, hshown, ← print_eq]

end Canonical

/-! ## Texts with the same canonical form -/

namespace Formatter

variable {f : Formatter} {text text' : Bytes} {d d' : Document}

theorem format_of_parse (h : Document.parse f.options text = .ok d) :
    f.format text = .ok (Canonical.print f.style d) := by
  rw [format, h]
  rfl

/-- **The order of attributes does not matter**, as long as those with the same key keep theirs. -/
theorem format_eq_of_reordered (hd : Document.parse f.options text = .ok d)
    (hd' : Document.parse f.options text' = .ok d') (h : Document.Reordered d d') :
    ∃ out, f.format text = .ok out ∧ f.format text' = .ok out := by
  have hshown := Canonical.shown_congr (Canonical.view_of_reordered h (v := f.style.vocabulary) 0)
  refine ⟨Canonical.print f.style d, format_of_parse hd, ?_⟩
  rw [format_of_parse hd', Canonical.print_eq, ← hshown, ← Canonical.print_eq]

/-- The attributes of both elements come in another order, except for the two with the same key. -/
theorem format_eq_of_reordered_nested :
    ∃ d d', Document.parse ({} : Formatter).options
        (Bytes.utf8 "<Row b=\"2\" a=\"1\" b=\"1\">hi <i y=\"1\" x=\"2\">t</i></Row>") = .ok d ∧
      Document.parse ({} : Formatter).options
        (Bytes.utf8 "<Row a=\"1\" b=\"2\" b=\"1\">hi <i x=\"2\" y=\"1\">t</i></Row>") = .ok d' ∧
      Document.Reordered d d' ∧
      ∃ out, ({} : Formatter).format
          (Bytes.utf8 "<Row b=\"2\" a=\"1\" b=\"1\">hi <i y=\"1\" x=\"2\">t</i></Row>") = .ok out ∧
        ({} : Formatter).format
          (Bytes.utf8 "<Row a=\"1\" b=\"2\" b=\"1\">hi <i x=\"2\" y=\"1\">t</i></Row>")
            = .ok out := by
  have hd : Document.parse ({} : Formatter).options
      (Bytes.utf8 "<Row b=\"2\" a=\"1\" b=\"1\">hi <i y=\"1\" x=\"2\">t</i></Row>")
      = .ok [.element (Bytes.utf8 "Row")
          [⟨Bytes.utf8 "b", Bytes.utf8 "2"⟩, ⟨Bytes.utf8 "a", Bytes.utf8 "1"⟩,
            ⟨Bytes.utf8 "b", Bytes.utf8 "1"⟩]
          [.text (Bytes.utf8 "hi "), .element (Bytes.utf8 "i")
            [⟨Bytes.utf8 "y", Bytes.utf8 "1"⟩, ⟨Bytes.utf8 "x", Bytes.utf8 "2"⟩]
            [.text (Bytes.utf8 "t")] false] false] := by
    decide +kernel
  have hd' : Document.parse ({} : Formatter).options
      (Bytes.utf8 "<Row a=\"1\" b=\"2\" b=\"1\">hi <i x=\"2\" y=\"1\">t</i></Row>")
      = .ok [.element (Bytes.utf8 "Row")
          [⟨Bytes.utf8 "a", Bytes.utf8 "1"⟩, ⟨Bytes.utf8 "b", Bytes.utf8 "2"⟩,
            ⟨Bytes.utf8 "b", Bytes.utf8 "1"⟩]
          [.text (Bytes.utf8 "hi "), .element (Bytes.utf8 "i")
            [⟨Bytes.utf8 "x", Bytes.utf8 "2"⟩, ⟨Bytes.utf8 "y", Bytes.utf8 "1"⟩]
            [.text (Bytes.utf8 "t")] false] false] := by
    decide +kernel
  refine ⟨_, _, hd, hd', ?h, format_eq_of_reordered hd hd' ?h⟩
  exact .element (by decide) (.text (.element (by decide) (.text .nil) .nil)) .nil

/-- **In a document without running text, blank texts do not matter**, nor whether an element
without content is a single tag. -/
theorem format_eq_of_bareAll (hd : Document.parse f.options text = .ok d)
    (hd' : Document.parse f.options text' = .ok d')
    (hlayout : ∀ t ∈ Node.startTagsAll d, f.vocabulary.rawText.has t.name = false)
    (h : Node.bareAll d = Node.bareAll d') :
    ∃ out, f.format text = .ok out ∧ f.format text' = .ok out := by
  have hgist : Node.gistAll Canonical.plainWords d = Node.gistAll Canonical.plainWords d' := by
    rw [← Node.gistAll_bareAll, h, Node.gistAll_bareAll]
  have hlayout' : ∀ t ∈ Node.startTagsAll d', f.vocabulary.rawText.has t.name = false :=
    Node.forall_name_of_gistAll (p := fun name => f.vocabulary.rawText.has name = false) hgist
      hlayout
  obtain ⟨hsound, hapart⟩ := (Document.written_of_parse hd).1.sound
  obtain ⟨hsound', hapart'⟩ := (Document.written_of_parse hd').1.sound
  refine ⟨Canonical.print f.style d, format_of_parse hd, ?_⟩
  rw [format_of_parse hd', ← Canonical.print_bareAll hsound' hapart' hlayout', ← h,
    Canonical.print_bareAll hsound hapart hlayout]

/-- The lines between the nodes and the closing tag of an element without content are left out. -/
theorem format_eq_of_bareAll_spaced :
    ∃ d d', Document.parse ({} : Formatter).options
        (Bytes.utf8 "<Row>\n  <Label a=\"1\">\n\n</Label> <!--c--> t </Row>\n") = .ok d ∧
      Document.parse ({} : Formatter).options
        (Bytes.utf8 "<Row><Label a=\"1\"/><!--c--> t </Row>") = .ok d' ∧
      (∀ t ∈ Node.startTagsAll d, Vocabulary.standard.rawText.has t.name = false) ∧
      Node.bareAll d = Node.bareAll d' ∧
      ∃ out, ({} : Formatter).format
          (Bytes.utf8 "<Row>\n  <Label a=\"1\">\n\n</Label> <!--c--> t </Row>\n") = .ok out ∧
        ({} : Formatter).format (Bytes.utf8 "<Row><Label a=\"1\"/><!--c--> t </Row>")
          = .ok out := by
  have hd : Document.parse ({} : Formatter).options
      (Bytes.utf8 "<Row>\n  <Label a=\"1\">\n\n</Label> <!--c--> t </Row>\n")
      = .ok [.element (Bytes.utf8 "Row") []
          [.text (Bytes.utf8 "\n  "), .element (Bytes.utf8 "Label")
            [⟨Bytes.utf8 "a", Bytes.utf8 "1"⟩] [.text (Bytes.utf8 "\n\n")] false,
            .text (Bytes.utf8 " "), .comment (Bytes.utf8 "c"), .text (Bytes.utf8 " t ")] false,
          .text (Bytes.utf8 "\n")] := by
    decide +kernel
  have hd' : Document.parse ({} : Formatter).options
      (Bytes.utf8 "<Row><Label a=\"1\"/><!--c--> t </Row>")
      = .ok [.element (Bytes.utf8 "Row") []
          [.element (Bytes.utf8 "Label") [⟨Bytes.utf8 "a", Bytes.utf8 "1"⟩] [] true,
            .comment (Bytes.utf8 "c"), .text (Bytes.utf8 " t ")] false] := by
    decide +kernel
  refine ⟨_, _, hd, hd', ?hlayout, ?h, format_eq_of_bareAll hd hd' ?hlayout ?h⟩ <;> decide +kernel

end Formatter

end LayoutMarkup

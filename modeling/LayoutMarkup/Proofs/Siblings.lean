import LayoutMarkup.Canonical.Printer
import LayoutMarkup.Proofs.Runs
import Mathlib.Data.List.SplitBy

/-!
# Proofs/Siblings — siblings one below the other

Of an item, only its lines and whether it is a comment matter for what comes out (`shown`).  Nodes
of which none flows into the text around it can be told apart: what is shown of siblings is what is
shown of the stretches between such nodes (`shown_append`).  A stretch with any wording in it is a
run (`shown_run`); without wording each node stands alone (`shown_of_no_wording`).  Along the same
lines, the start tags in siblings are told apart by whether they stand in running text
(`tagsAmong`).
-/

namespace LayoutMarkup

namespace Canonical

/-! ## What is shown of siblings -/

/-- What matters of an item: whether it is a comment, and its lines. -/
def Item.shown (v : Vocabulary) (depth : Nat) (i : Item) : Bool × List Line :=
  (i.isComment, i.lines v depth)

/-- What is shown of siblings. -/
def shown (v : Vocabulary) (depth : Nat) (ns : List Node) : List (Bool × List Line) :=
  (Item.ofSiblings v (siblings v depth ns)).map (Item.shown v depth)

/-- What is shown of a node that stands alone. -/
def alone? (v : Vocabulary) (depth : Nat) (n : Node) : Option (Bool × List Line) :=
  (Item.alone? (n, block v depth n)).map (Item.shown v depth)

/-- Items one below the other, given what is shown of them. -/
def stackShown (leading spaced : Bool) : List (Bool × List Line) → List Line
  | [] => []
  | i :: items =>
    (if leading || (spaced && i.1) then [.blank] else []) ++ (i.2 ++ stackShown false spaced items)

variable {v : Vocabulary} {depth : Nat}

/-- Of the items, only what is shown of them matters. -/
theorem stack_eq (leading spaced : Bool) (items : List Item) :
    Item.stack v depth leading spaced items
      = stackShown leading spaced (items.map (Item.shown v depth)) := by
  induction items generalizing leading with
  | nil => rfl
  | cons i items ih =>
    rw [Item.stack, List.map_cons, stackShown, ih]
    rfl

/-- Items can be stacked in parts; only the first one can have the leading blank line. -/
theorem stackShown_append (leading spaced : Bool) (is js : List (Bool × List Line)) :
    stackShown leading spaced (is ++ js)
      = stackShown leading spaced is ++ stackShown (leading && is.isEmpty) spaced js := by
  induction is generalizing leading with
  | nil => simp [stackShown]
  | cons i is ih => simp [stackShown, ih]

theorem stackShown_cons (leading spaced : Bool) (i : Bool × List Line)
    (items : List (Bool × List Line)) : stackShown leading spaced (i :: items)
      = stackShown leading spaced [i] ++ stackShown false spaced items := by
  have h := stackShown_append leading spaced [i] items
  rwa [List.isEmpty_cons, Bool.and_false] at h

theorem siblings_eq_map (v : Vocabulary) (depth : Nat) (ns : List Node) :
    siblings v depth ns = ns.map fun n => (n, block v depth n) := by
  induction ns with
  | nil => rfl
  | cons n ns ih => rw [siblings, ih, List.map_cons]

/-! ## Stretches -/

/-- Siblings can be shown in parts, if nothing flows from one into the other. -/
theorem shown_append {ns ms : List Node}
    (h : ∀ x ∈ ns.getLast?, ∀ y ∈ ms.head?, (isInline v x && isInline v y) = false) :
    shown v depth (ns ++ ms) = shown v depth ns ++ shown v depth ms := by
  rw [shown, shown, shown, Item.ofSiblings, siblings_eq_map, List.map_append, List.splitBy_append,
    List.flatMap_append, List.map_append, ← siblings_eq_map, ← siblings_eq_map]
  · rfl
  · intro a ha b hb
    rw [List.getLast?_map] at ha
    rw [List.head?_map] at hb
    obtain ⟨x, hx, rfl⟩ := Option.mem_map.mp ha
    obtain ⟨y, hy, rfl⟩ := Option.mem_map.mp hb
    exact h x hx y hy

/-- A node that does not flow parts the siblings. -/
theorem shown_append_cons {ns ms : List Node} {n : Node} (h : isInline v n = false) :
    shown v depth (ns ++ n :: ms) = shown v depth ns ++ shown v depth [n] ++ shown v depth ms := by
  have hright : shown v depth ([n] ++ ms) = shown v depth [n] ++ shown v depth ms := by
    refine shown_append fun x hx y _ => ?_
    obtain rfl : n = x := by simpa using hx
    rw [h, Bool.false_and]
  rw [List.singleton_append] at hright
  rw [shown_append fun x _ y hy => ?_, hright, List.append_assoc]
  obtain rfl : n = y := by simpa using hy
  rw [h, Bool.and_false]

/-- **Where there is no wording, each node stands alone.** -/
theorem shown_of_no_wording {ns : List Node} (h : ∀ n ∈ ns, n.isWording = false) :
    shown v depth ns = ns.filterMap (alone? v depth) := by
  have hgroup : ∀ group ∈ (siblings v depth ns).splitBy fun a b => isInline v a.1 && isInline v b.1,
      Item.ofGroup group = group.filterMap Item.alone? := by
    intro group hgroup
    rw [Item.ofGroup, if_neg]
    simp only [List.any_eq_true, not_exists, not_and, Bool.not_eq_true]
    intro a ha
    have hmem : a ∈ siblings v depth ns := by
      rw [← List.flatten_splitBy (fun a b => isInline v a.1 && isInline v b.1) (siblings ..)]
      exact List.mem_flatten.mpr ⟨group, hgroup, ha⟩
    rw [siblings_eq_map] at hmem
    obtain ⟨n, hn, rfl⟩ := List.mem_map.mp hmem
    exact h n hn
  rw [shown, Item.ofSiblings, List.flatMap_congr hgroup, List.flatMap_def, ← List.filterMap_flatten,
    List.flatten_splitBy, siblings_eq_map, List.filterMap_map, List.map_filterMap]
  rfl

/-- **A stretch with wording in it is a run.** -/
theorem shown_run {ns : List Node} (h : ∀ n ∈ ns, isInline v n = true)
    (hw : ns.any Node.isWording = true) : shown v depth ns
      = [(false, moveLines depth (Bytes.trim Bytes.isBlank (inlineAll v ns)))] := by
  have hne : siblings v depth ns ≠ [] := by
    rw [siblings_eq_map]
    rintro hnil
    rw [List.map_eq_nil_iff.mp hnil] at hw
    cases hw
  have hchain : (siblings v depth ns).IsChain
      fun a b => (isInline v a.1 && isInline v b.1) = true := by
    rw [siblings_eq_map, List.isChain_map]
    refine List.Pairwise.isChain (List.pairwise_of_forall_mem_list fun a ha b hb => ?_)
    rw [h a ha, h b hb]
    rfl
  have hany : (siblings v depth ns).any (·.1.isWording) = true := by
    rw [siblings_eq_map, List.any_map]
    exact hw
  rw [shown, Item.ofSiblings, List.splitBy_of_isChain hne hchain, List.flatMap_cons,
    List.flatMap_nil, List.append_nil, Item.ofGroup, if_pos hany, siblings_eq_map, List.map_map]
  have hfst : ns.map (Prod.fst ∘ fun n => (n, block v depth n)) = ns := List.map_id' ns
  rw [hfst]
  rfl

/-! ## Pieces of text -/

theorem any_isWording_glue (ns : List Node) :
    (glue ns).any Node.isWording = ns.any Node.isWording := by
  refine glue_invariant (f := fun ns => ns.any Node.isWording) (fun raw raw' ns => ?_)
    (fun _ => rfl) (fun n ns ms h => ?_) ns
  · simp only [List.any_cons, Node.isWording, List.all_append, Bool.not_and, Bool.or_assoc]
  · rw [List.any_cons, List.any_cons, h]

theorem inlineAll_glue (ns : List Node) : inlineAll v (glue ns) = inlineAll v ns := by
  refine glue_invariant (fun raw raw' ns => ?_) (fun _ => rfl) (fun n ns ms h => ?_) ns
  · simp only [inlineAll, inline, List.append_assoc]
  · rw [inlineAll, inlineAll, h]

theorem filterMap_alone?_glue (ns : List Node) :
    (glue ns).filterMap (alone? v depth) = ns.filterMap (alone? v depth) := by
  refine glue_invariant (fun raw raw' ns => rfl) (fun _ => rfl) (fun n ns ms h => ?_) ns
  rw [List.filterMap_cons, List.filterMap_cons, h]

/-- The case of a stretch for `shown_glue`. -/
theorem shown_glue_stretch {ns : List Node} (h : ∀ n ∈ ns, isInline v n = true) :
    shown v depth (glue ns) = shown v depth ns := by
  have hglue : ∀ n ∈ glue ns, isInline v n = true := by
    intro n hn
    rcases isText_or_mem_of_mem_glue hn with ht | hn
    · obtain ⟨raw, rfl⟩ := Node.isText_iff.mp ht
      rfl
    · exact h n hn
  have hany := any_isWording_glue ns
  cases hw : ns.any Node.isWording with
  | true =>
    rw [hw] at hany
    rw [shown_run hglue hany, shown_run h hw, inlineAll_glue]
  | false =>
    rw [hw] at hany
    rw [shown_of_no_wording (by simpa using hany), shown_of_no_wording (by simpa using hw),
      filterMap_alone?_glue]

/-- Text always flows. -/
theorem isText_of_not_inline {n : Node} (h : isInline v n = false) : n.isText = false := by
  cases n with
  | text raw => cases h
  | _ => rfl

/-- Siblings are a stretch of nodes that flow, or go on behind one that does not. -/
theorem siblings_induction (v : Vocabulary) {P : List Node → Prop}
    (stretch : ∀ ns, (∀ n ∈ ns, isInline v n = true) → P ns)
    (cons : ∀ ns n ms, (∀ n ∈ ns, isInline v n = true) → isInline v n = false → P ms →
      P (ns ++ n :: ms)) : ∀ ns, P ns :=
  split_induction (p := fun n => !isInline v n)
    (fun ns hns => stretch ns fun n hn => by simpa using hns n hn)
    fun ns n ms hns hn hms => cons ns n ms (fun m hm => by simpa using hns m hm)
      (by simpa using hn) hms

/-- **How text is cut into pieces does not show.** -/
theorem shown_glue (ns : List Node) : shown v depth (glue ns) = shown v depth ns := by
  induction ns using siblings_induction v with
  | stretch ns hns => exact shown_glue_stretch hns
  | cons ns n ms hns hn ih =>
    rw [glue_append_cons (isText_of_not_inline hn), shown_append_cons hn, shown_append_cons hn,
      shown_glue_stretch hns, ih]

/-! ## Start tags in running text

Only the lines of running text are moved.  A start tag stands in it if its element, or one around
it, flows into wording or is running text as a whole. -/

/-- Is there wording among the first nodes, as far as they flow into each other? -/
def wordingAhead (v : Vocabulary) (ns : List Node) : Bool :=
  (ns.takeWhile (isInline v)).any Node.isWording

mutual

/-- The start tags in a node that flows into no wording, in the order of the document, each with
whether it stands in running text all the same. -/
def tagsAlone (v : Vocabulary) : Node → List (StartTag × Bool)
  | .text _ | .comment _ => []
  | .element name attributes children selfClosing =>
    if !decide (1 < attributes.length) && isVerbatim v name children then
      (Node.element name attributes children selfClosing).startTags.map (·, true)
    else (⟨name, attributes⟩, false) :: tagsAmong v false children

/-- The start tags in siblings, in the order of the document, each with whether it stands in running
text.  With `worded` there is wording before the siblings that flows into them. -/
def tagsAmong (v : Vocabulary) (worded : Bool) : List Node → List (StartTag × Bool)
  | [] => []
  | n :: nodes =>
    (if isInline v n && (worded || wordingAhead v (n :: nodes)) then n.startTags.map (·, true)
      else tagsAlone v n) ++ tagsAmong v (isInline v n && (worded || n.isWording)) nodes

end

/-- The step of the induction behind `map_fst_tagsAlone`, from children to their parent. -/
theorem map_fst_tagsAmong_of {ns : List Node}
    (h : ∀ n ∈ ns, (tagsAlone v n).map Prod.fst = n.startTags) (worded : Bool) :
    (tagsAmong v worded ns).map Prod.fst = Node.startTagsAll ns := by
  induction ns generalizing worded with
  | nil => rfl
  | cons n ns ih =>
    obtain ⟨hn, hns⟩ := List.forall_mem_cons.mp h
    rw [tagsAmong, List.map_append, ih hns, Node.startTagsAll]
    split
    · rw [List.map_map]
      exact congrArg (· ++ _) (List.map_id' _)
    · rw [hn]

theorem map_fst_tagsAlone (n : Node) : (tagsAlone v n).map Prod.fst = n.startTags := by
  induction n using Node.induction with
  | text raw => rfl
  | comment body => rfl
  | element name as children selfClosing ih =>
    rw [tagsAlone]
    split
    · rw [List.map_map]
      exact List.map_id' _
    · rw [List.map_cons, map_fst_tagsAmong_of ih, Node.startTags]

/-- All start tags are there. -/
theorem map_fst_tagsAmong (worded : Bool) (ns : List Node) :
    (tagsAmong v worded ns).map Prod.fst = Node.startTagsAll ns :=
  map_fst_tagsAmong_of (fun n _ => map_fst_tagsAlone n) worded

/-- Wording behind a node that does not flow is not ahead. -/
theorem wordingAhead_append_cons {ns ms : List Node} {n : Node} (h : isInline v n = false) :
    wordingAhead v (ns ++ n :: ms) = wordingAhead v ns := by
  induction ns with
  | nil => rw [List.nil_append, wordingAhead, List.takeWhile_cons, h]; rfl
  | cons m ns ih =>
    rw [wordingAhead] at ih ⊢
    rw [wordingAhead, List.cons_append, List.takeWhile_cons, List.takeWhile_cons]
    split
    · rw [List.any_cons, List.any_cons, ih, wordingAhead]
    · rfl

/-- Wording does not reach over a node that does not flow. -/
theorem tagsAmong_append_cons {ns ms : List Node} {n : Node} (h : isInline v n = false)
    (worded : Bool) : tagsAmong v worded (ns ++ n :: ms)
      = tagsAmong v worded ns ++ (tagsAlone v n ++ tagsAmong v false ms) := by
  induction ns generalizing worded with
  | nil =>
    simp only [List.nil_append, tagsAmong, h, Bool.false_and]
    rfl
  | cons m ns ih =>
    rw [List.cons_append, tagsAmong, tagsAmong, ih, ← List.cons_append, wordingAhead_append_cons h,
      List.append_assoc]

/-- Where there is no wording, each node stands alone. -/
theorem tagsAmong_of_no_wording {ns : List Node} (h : ∀ n ∈ ns, n.isWording = false) :
    tagsAmong v false ns = ns.flatMap (tagsAlone v) := by
  induction ns with
  | nil => rfl
  | cons n ns ih =>
    have hahead : wordingAhead v (n :: ns) = false := List.any_eq_false.mpr fun m hm => by
      rw [h m ((List.takeWhile_prefix _).subset hm)]
      exact Bool.false_ne_true
    obtain ⟨hn, hns⟩ := List.forall_mem_cons.mp h
    rw [tagsAmong, hahead, hn, Bool.or_self, Bool.and_false, ih hns, List.flatMap_cons]
    rfl

/-- All of a stretch with wording in it is running text. -/
theorem tagsAmong_run {ns : List Node} (h : ∀ n ∈ ns, isInline v n = true) (worded : Bool)
    (hw : (worded || ns.any Node.isWording) = true) :
    tagsAmong v worded ns = (Node.startTagsAll ns).map (·, true) := by
  induction ns generalizing worded with
  | nil => rfl
  | cons n ns ih =>
    have hahead : wordingAhead v (n :: ns) = (n :: ns).any Node.isWording := by
      rw [wordingAhead, List.takeWhile_eq_self_iff.mpr h]
    obtain ⟨hn, hns⟩ := List.forall_mem_cons.mp h
    rw [tagsAmong, hahead, hw, hn, Bool.true_and, Bool.true_and, if_pos rfl, Node.startTagsAll,
      List.map_append, ih hns]
    rwa [Bool.or_assoc, ← List.any_cons]

end Canonical

end LayoutMarkup

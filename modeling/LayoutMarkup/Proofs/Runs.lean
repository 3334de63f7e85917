import LayoutMarkup.Proofs.RunningText

/-!
# Proofs/Runs — running text moved as a block of lines

When the plain form of nodes is moved as a block of lines, each text and each value in it is moved
on its own (`movesAlone`), since a mark stands at every seam.  When it is trimmed, only the texts at
its two ends are (`writeAll_trim`).  None of this touches the gist.
-/

namespace LayoutMarkup

namespace Canonical

/-! ## Moving texts and values -/

mutual

/-- The node with its texts and values replaced. -/
def mapText (f : Bytes → Bytes) : Node → Node
  | .text raw => .text (f raw)
  | .comment body => .comment body
  | .element name attributes children selfClosing =>
    .element name (attributes.map fun a => ⟨a.key, f a.value⟩) (mapTexts f children) selfClosing

/-- The nodes with their texts and values replaced. -/
def mapTexts (f : Bytes → Bytes) : List Node → List Node
  | [] => []
  | n :: nodes => mapText f n :: mapTexts f nodes

end

/-- All texts and values in the node satisfy `p`. -/
inductive EachText (p : Bytes → Prop) : Node → Prop
  | text {raw : Bytes} (h : p raw) : EachText p (.text raw)
  | comment {body : Bytes} : EachText p (.comment body)
  | element {name : Bytes} {as : List Attribute} {children : List Node} {selfClosing : Bool}
      (has : ∀ a ∈ as, p a.value) (hchildren : ∀ n ∈ children, EachText p n) :
      EachText p (.element name as children selfClosing)

theorem mapTexts_eq_map (f : Bytes → Bytes) (ns : List Node) :
    mapTexts f ns = ns.map (mapText f) := by
  induction ns with
  | nil => rfl
  | cons n ns ih => rw [mapTexts, ih, List.map_cons]

theorem isText_mapText (f : Bytes → Bytes) (n : Node) : (mapText f n).isText = n.isText := by
  cases n <;> rfl

/-- The text is deep enough exactly if `p` holds, and then comes out as `s'`. -/
structure Moved (pad : Bytes) (k : Nat) (s : Bytes) (p : Prop) (s' : Bytes) : Prop where
  deep : Deep k s ↔ p
  out : p → shift pad k s = s'

section

variable {pad s t s' t' : Bytes} {k : Nat} {p q : Prop}

/-- Texts are moved one by one, if they meet at something that is not blank. -/
theorem Moved.append (hs : Moved pad k s p s') (ht : Moved pad k t q t') (h : Firm s t) :
    Moved pad k (s ++ t) (p ∧ q) (s' ++ t') where
  deep := by rw [deep_append h, hs.deep, ht.deep]
  out hpq := by rw [shift_append h (hs.deep.mpr hpq.1), hs.out hpq.1, ht.out hpq.2]

theorem Moved.self : Moved pad k s (Deep k s) (shift pad k s) := ⟨Iff.rfl, fun _ => rfl⟩

/-- A single line stays where it is. -/
theorem Moved.line (h : Bytes.lf ∉ s) : Moved pad k s True s :=
  ⟨iff_of_true (deep_line h) trivial, fun _ => shift_line h⟩

theorem Moved.congr (h : Moved pad k s p s') (hpq : p ↔ q) : Moved pad k s q s' :=
  ⟨h.deep.trans hpq, fun hq => h.out (hpq.mpr hq)⟩

end

theorem lf_not_mem_of_isName {name : Bytes} (h : name.IsName) : Bytes.lf ∉ name := fun hmem =>
  absurd (h.not_blank _ hmem) (by decide)

variable {pad : Bytes} {k : Nat}

/-- An attribute ends with its quote. -/
theorem ends_pairText (a : Attribute) : Ends (pairText a) :=
  ends_append _ ⟨'"'.toUInt8, rfl, by decide⟩

/-- To move the lines of an attribute is to move those of its value. -/
theorem moved_pairText {a : Attribute} (h : a.Sound) :
    Moved pad k (pairText a) (Deep k a.value) (pairText ⟨a.key, shift pad k a.value⟩) := by
  have hkey : Moved pad k (a.key ++ Bytes.utf8 "=\"") True (a.key ++ Bytes.utf8 "=\"") :=
    .line (not_mem_append (lf_not_mem_of_isName h.key) (by decide))
  have hvalue : Moved pad k a.value (Deep k a.value) (shift pad k a.value) := .self
  have hclose : Moved pad k (Bytes.utf8 "\"") True (Bytes.utf8 "\"") := .line (by decide)
  have hopen := hkey.append hvalue (.inl (ends_append _ ⟨'"'.toUInt8, rfl, by decide⟩))
  have hpair := hopen.append hclose (.inr ⟨'"'.toUInt8, rfl, by decide⟩)
  exact hpair.congr (by simp)

/-- Attributes are moved one by one, since each ends with its quote. -/
theorem moved_pairsText {as : List Attribute} (h : ∀ a ∈ as, a.Sound) :
    Moved pad k (as.flatMap fun a => Bytes.utf8 " " ++ pairText a) (∀ a ∈ as, Deep k a.value)
      ((as.map fun a => (⟨a.key, shift pad k a.value⟩ : Attribute)).flatMap
        fun a => Bytes.utf8 " " ++ pairText a) := by
  induction as with
  | nil => exact (Moved.line (by simp)).congr (by simp)
  | cons a as ih =>
    obtain ⟨ha, has⟩ := List.forall_mem_cons.mp h
    have hspace : Moved pad k (Bytes.utf8 " ") True (Bytes.utf8 " ") := .line (by decide)
    have hbegins : Begins (pairText a) := by
      obtain ⟨b, t, hbt⟩ := List.exists_cons_of_ne_nil (Bytes.IsWord.ne_nil ha.key)
      refine ⟨b, by rw [pairText, hbt]; rfl, ha.key.not_blank b ?_⟩
      rw [hbt]
      exact List.mem_cons_self
    have hfirst := hspace.append (moved_pairText ha) (.inr hbegins)
    have hall := hfirst.append (ih has) (.inl (ends_append _ (ends_pairText a)))
    exact hall.congr (by simp)

/-- To move the lines of a start tag is to move those of its values. -/
theorem moved_tagText {name : Bytes} {as : List Attribute} (hname : name.IsName)
    (has : ∀ a ∈ as, a.Sound) :
    Moved pad k (tagText name as) (∀ a ∈ as, Deep k a.value)
      (tagText name (as.map fun a => ⟨a.key, shift pad k a.value⟩)) := by
  have hopen : Moved pad k (Bytes.utf8 "<" ++ name) True (Bytes.utf8 "<" ++ name) :=
    .line (not_mem_append (by decide) (lf_not_mem_of_isName hname))
  have hends : Ends (Bytes.utf8 "<" ++ name) := by
    refine ends_append _ ⟨name.getLast (Bytes.IsWord.ne_nil hname), ?_, ?_⟩
    · exact List.getLast?_eq_some_getLast _
    · exact hname.not_blank _ (List.getLast_mem _)
  exact (hopen.append (moved_pairsText has) (.inl hends)).congr (by simp)

/-- An element or a comment begins with its mark. -/
theorem begins_write {n : Node} (h : n.isText = false) : Begins (write n) := by
  have hopen : Begins (Bytes.utf8 "<") := ⟨'<'.toUInt8, rfl, by decide⟩
  cases n with
  | text raw => cases h
  | comment body => exact ⟨'<'.toUInt8, rfl, by decide⟩
  | element name as children selfClosing =>
    rw [write, tagText]
    exact begins_append (begins_append (begins_append hopen _) _) _

/-- An element or a comment ends with its mark. -/
theorem ends_write {n : Node} (h : n.isText = false) : Ends (write n) := by
  have hclose : Ends (Bytes.utf8 ">") := ⟨'>'.toUInt8, rfl, by decide⟩
  cases n with
  | text raw => cases h
  | comment body => exact ends_append _ ⟨'>'.toUInt8, rfl, by decide⟩
  | element name as children selfClosing =>
    rw [write]
    refine ends_append _ ?_
    split
    · exact ⟨'>'.toUInt8, rfl, by decide⟩
    · exact ends_append _ (ends_append _ hclose)

theorem eachText_text_iff {p : Bytes → Prop} {raw : Bytes} : EachText p (.text raw) ↔ p raw := by
  refine ⟨fun h => ?_, .text⟩
  cases h with
  | text h => exact h

/-- The texts of an element are the values of its attributes and the texts of its children. -/
theorem eachText_element_iff {p : Bytes → Prop} {name : Bytes} {as : List Attribute}
    {children : List Node} {selfClosing : Bool} :
    EachText p (.element name as children selfClosing) ↔
      (∀ a ∈ as, p a.value) ∧ ∀ n ∈ children, EachText p n := by
  refine ⟨fun h => ?_, fun h => .element h.1 h.2⟩
  cases h with
  | element has hchildren => exact ⟨has, hchildren⟩

/-- The plain form of a node is moved text by text. -/
def MovesAlone (pad : Bytes) (k : Nat) (n : Node) : Prop :=
  Moved pad k (write n) (EachText (Deep k) n) (write (mapText (shift pad k) n))

theorem movesAlone_text (raw : Bytes) : MovesAlone pad k (.text raw) :=
  Moved.self.congr eachText_text_iff.symm

/-- A mark stands at the seam between two nodes, since one of them is no text. -/
theorem firm_writeAll {n m : Node} {ns : List Node} (h : Apart (n :: m :: ns)) :
    Firm (write n) (writeAll (m :: ns)) := by
  cases ht : n.isText with
  | false => exact .inl (ends_write ht)
  | true =>
    have hm : m.isText = false := (List.isChain_cons_cons.mp h).1 ht
    exact .inr (begins_append (begins_write hm) _)

/-- Nodes that can be moved one by one can be moved together, since no text is next to another. -/
theorem moved_writeAll_of_forall {ns : List Node} (hapart : Apart ns)
    (h : ∀ n ∈ ns, MovesAlone pad k n) :
    Moved pad k (writeAll ns) (∀ n ∈ ns, EachText (Deep k) n)
      (writeAll (mapTexts (shift pad k) ns)) := by
  induction ns with
  | nil => exact (Moved.line (by simp [writeAll])).congr (by simp)
  | cons n ns ih =>
    obtain ⟨hn, hns⟩ := List.forall_mem_cons.mp h
    cases ns with
    | nil => simpa [writeAll, mapTexts, MovesAlone] using hn
    | cons m ns =>
      have hall := hn.append (ih hapart.of_cons hns) (firm_writeAll hapart)
      exact hall.congr List.forall_mem_cons.symm

theorem hasComment_of_any {children : List Node} (h : Node.anyHasComment children = false) :
    ∀ n ∈ children, n.hasComment = false := by
  induction children with
  | nil => simp
  | cons n ns ih =>
    rw [Node.anyHasComment, Bool.or_eq_false_iff] at h
    exact List.forall_mem_cons.mpr ⟨h.1, ih h.2⟩

/-- **Running text is moved text by text and value by value.** -/
theorem movesAlone {n : Node} (h : n.Sound) (hc : n.hasComment = false) : MovesAlone pad k n := by
  induction n using Node.induction with
  | text raw => exact movesAlone_text raw
  | comment body => cases hc
  | element name as children selfClosing ih =>
    obtain _ | _ | ⟨hname, has, hchildren, hapart, hself⟩ := h
    have htag : Moved pad k (tagText name as) _ _ := moved_tagText hname has
    cases selfClosing with
    | true =>
      obtain rfl := hself rfl
      have hend : Moved pad k (Bytes.utf8 "/>") True (Bytes.utf8 "/>") := .line (by decide)
      have := htag.append hend (.inr ⟨'/'.toUInt8, rfl, by decide⟩)
      exact this.congr (by rw [eachText_element_iff]; simp)
    | false =>
      rw [Node.hasComment] at hc
      have hinner : Moved pad k (writeAll children) _ _ := moved_writeAll_of_forall hapart
        fun n hn => ih n hn (hchildren n hn) (hasComment_of_any hc n hn)
      have hend : Moved pad k (Bytes.utf8 ">") True (Bytes.utf8 ">") := .line (by decide)
      have hclose : Moved pad k (closingTag name) True (closingTag name) :=
        .line (not_mem_append (not_mem_append (by decide) (lf_not_mem_of_isName hname)) (by decide))
      have hbegins : Begins (closingTag name) := ⟨'<'.toUInt8, rfl, by decide⟩
      have hcontent := (hend.append hinner (.inl ⟨'>'.toUInt8, rfl, by decide⟩)).append hclose
        (.inr hbegins)
      have hall := htag.append hcontent (.inr ⟨'>'.toUInt8, rfl, by decide⟩)
      exact hall.congr (by rw [eachText_element_iff]; simp)

/-! ## Moved nodes -/

section

variable (hpad : ∀ b ∈ pad, isIndent b = true)
include hpad

/-- A byte that is no indentation does not come in by moving. -/
theorem not_mem_shift {b : UInt8} {s : Bytes} (hb : isIndent b = false) (h : b ∉ s) :
    b ∉ shift pad k s := fun hmem =>
  (mem_shift hmem).elim (fun hb' => by rw [hpad b hb'] at hb; cases hb) h

/-- A moved node can still be written down. -/
theorem mapText_sound {n : Node} (h : n.Sound) : (mapText (shift pad k) n).Sound := by
  induction n using Node.induction with
  | text raw =>
    obtain ⟨hne, hraw⟩ := h
    exact .text (fun hnil => hne (shift_eq_nil_iff.mp hnil)) (not_mem_shift hpad (by decide) hraw)
  | comment body => exact h
  | element name as children selfClosing ih =>
    obtain _ | _ | ⟨hname, has, hchildren, hapart, hself⟩ := h
    rw [mapText, mapTexts_eq_map]
    refine .element hname (fun a ha => ?_) (fun n hn => ?_) (hapart.map (isText_mapText _)) ?_
    · obtain ⟨b, hb, rfl⟩ := List.mem_map.mp ha
      exact ⟨(has b hb).key, not_mem_shift hpad (by decide) (has b hb).value⟩
    · obtain ⟨m, hm, rfl⟩ := List.mem_map.mp hn
      exact ih m hm (hchildren m hm)
    · rintro hs
      rw [hself hs]
      rfl

/-- A text made of blanks stays one, and no other becomes one. -/
theorem isBlank_mapText {n : Node} (h : EachText (Deep k) n) :
    (mapText (shift pad k) n).isBlank = n.isBlank := by
  cases n with
  | text raw =>
    rw [mapText, Node.isBlank, Node.isBlank, Bool.eq_iff_iff, ← Bytes.words_eq_nil_iff,
      ← Bytes.words_eq_nil_iff, words_shift hpad (eachText_text_iff.mp h)]
  | _ => rfl

/-- The step of the induction behind `gist_mapText`, from children to their parent. -/
theorem gistAll_mapTexts_of_forall {ns : List Node} (h : ∀ n ∈ ns, EachText (Deep k) n)
    (hgist : ∀ n ∈ ns, (mapText (shift pad k) n).gist plainWords = n.gist plainWords) :
    Node.gistAll plainWords (mapTexts (shift pad k) ns) = Node.gistAll plainWords ns := by
  induction ns with
  | nil => rfl
  | cons n ns ih =>
    obtain ⟨hn, hns⟩ := List.forall_mem_cons.mp h
    obtain ⟨hgn, hgns⟩ := List.forall_mem_cons.mp hgist
    rw [mapTexts, Node.gistAll, Node.gistAll, isBlank_mapText hpad hn, hgn, ih hns hgns]

/-- **Moving the lines of a node keeps its gist.** -/
theorem gist_mapText {n : Node} (h : EachText (Deep k) n) :
    (mapText (shift pad k) n).gist plainWords = n.gist plainWords := by
  induction n using Node.induction with
  | text raw => rw [mapText, Node.gist, Node.gist, words_shift hpad (eachText_text_iff.mp h)]
  | comment body => rfl
  | element name as children selfClosing ih =>
    obtain ⟨has, hchildren⟩ := eachText_element_iff.mp h
    have hwords : plainWords (as.map fun a => ⟨a.key, shift pad k a.value⟩) = plainWords as := by
      rw [plainWords, plainWords, List.map_map]
      refine List.map_congr_left fun a ha => ?_
      rw [Function.comp_apply, words_shift hpad (has a ha)]
    rw [mapText, Node.gist, Node.gist, hwords,
      gistAll_mapTexts_of_forall hpad hchildren fun n hn => ih n hn (hchildren n hn)]

theorem gistAll_mapTexts {ns : List Node} (h : ∀ n ∈ ns, EachText (Deep k) n) :
    Node.gistAll plainWords (mapTexts (shift pad k) ns) = Node.gistAll plainWords ns :=
  gistAll_mapTexts_of_forall hpad h fun n hn => gist_mapText hpad (h n hn)

end

/-- Moved nodes are nested as before. -/
theorem nesting_mapText (f : Bytes → Bytes) (n : Node) : (mapText f n).nesting = n.nesting := by
  induction n using Node.induction with
  | text raw => rfl
  | comment body => rfl
  | element name as children selfClosing ih =>
    have hall : Node.nestingAll (mapTexts f children) = Node.nestingAll children := by
      induction children with
      | nil => rfl
      | cons n ns ihns =>
        obtain ⟨hn, hns⟩ := List.forall_mem_cons.mp ih
        rw [mapTexts, Node.nestingAll, Node.nestingAll, hn, ihns hns]
    rw [mapText, Node.nesting, Node.nesting, hall]

/-! ## Attributes of moved nodes -/

/-- The attributes keep their keys, and their values are moved. -/
theorem attributesBy_mapText (f : Bytes → Bytes) (n : Node) :
    (mapText f n).attributesBy id = (n.attributesBy id).map fun a => ⟨a.key, f a.value⟩ := by
  induction n using Node.induction with
  | text raw => rfl
  | comment body => rfl
  | element name as children selfClosing ih =>
    rw [mapText, Node.attributesBy, Node.attributesBy, List.map_append, mapTexts_eq_map,
      Node.attributesByAll_eq_flatMap, Node.attributesByAll_eq_flatMap, List.flatMap_map,
      List.map_flatMap, List.flatMap_congr ih]
    rfl

/-- The attributes of a tidy node are the sorted ones with their canonical values. -/
theorem attributesBy_tidy (v : Vocabulary) (n : Node) :
    (tidy v n).attributesBy id
      = (n.attributesBy sortAttributes).map fun a => ⟨a.key, value v a⟩ := by
  induction n using Node.induction with
  | text raw => rfl
  | comment body => rfl
  | element name as children selfClosing ih =>
    rw [tidy, Node.attributesBy, List.map_append]
    split
    · next hempty =>
      rw [← Node.attributesByAll_significant, List.isEmpty_iff.mp hempty, Node.attributesBy]
      rfl
    · rw [Node.attributesBy, tidyAll_eq_map, Node.attributesByAll_eq_flatMap,
        Node.attributesByAll_eq_flatMap, List.flatMap_map, List.map_flatMap, List.flatMap_congr ih]
      rfl

/-- Sorting looks at the keys alone. -/
theorem sortAttributes_map_sortAttributes (f : Attribute → Bytes) (as : List Attribute) :
    sortAttributes ((sortAttributes as).map fun a => ⟨a.key, f a⟩)
      = (sortAttributes as).map fun a => ⟨a.key, f a⟩ :=
  sortAttributes_of_pairwise (List.pairwise_map.mpr (pairwise_sortAttributes as))

/-- Tidy attributes are in order. -/
theorem sortAttributes_tidyAttributes (v : Vocabulary) (as : List Attribute) :
    sortAttributes (tidyAttributes v as) = tidyAttributes v as :=
  sortAttributes_map_sortAttributes (value v) as

/-- Tidy attributes stay in order whatever becomes of their values. -/
theorem sortAttributes_map_tidyAttributes (f : Bytes → Bytes) (as : List Attribute) :
    sortAttributes ((tidyAttributes v as).map fun a => ⟨a.key, f a.value⟩)
      = (tidyAttributes v as).map fun a => ⟨a.key, f a.value⟩ := by
  have h := sortAttributes_map_sortAttributes (fun a => f (value v a)) as
  rwa [tidyAttributes, List.map_map]

theorem attributesBy_sort_mapText_tidy (f : Bytes → Bytes) (n : Node) :
    (mapText f (tidy v n)).attributesBy sortAttributes
      = (mapText f (tidy v n)).attributesBy id := by
  induction n using Node.induction with
  | text raw => rfl
  | comment body => rfl
  | element name as children selfClosing ih =>
    rw [tidy]
    split
    · rw [mapText, Node.attributesBy, Node.attributesBy, sortAttributes_map_tidyAttributes]
      rfl
    · rw [mapText, Node.attributesBy, Node.attributesBy, sortAttributes_map_tidyAttributes,
        mapTexts_eq_map, tidyAll_eq_map, Node.attributesByAll_eq_flatMap,
        Node.attributesByAll_eq_flatMap, List.map_map, List.flatMap_map, List.flatMap_map]
      exact congrArg (_ ++ ·) (List.flatMap_congr ih)

/-! ## Settled nodes -/

/-- The value of the attribute is its own canonical form. -/
def Settled (v : Vocabulary) (a : Attribute) : Prop := value v a = a.value

/-- Attributes that are in order and settled are tidy. -/
theorem tidyAttributes_of_settled {as : List Attribute} (hsorted : sortAttributes as = as)
    (h : ∀ a ∈ as, Settled v a) : tidyAttributes v as = as := by
  rw [tidyAttributes, hsorted]
  conv_rhs => rw [← List.map_id as]
  refine List.map_congr_left fun a ha => ?_
  rw [h a ha]
  rfl

/-- Whether anything significant is there can be told from the gist. -/
theorem isEmpty_significant (f : List Attribute → List (Bytes × List Bytes)) (ns : List Node) :
    (Node.significant ns).isEmpty = (Node.gistAll f ns).isEmpty := by
  rw [Node.gistAll_eq_map, List.isEmpty_map]

/-- **Moved running text is tidy, if its values are settled.** -/
theorem tidy_mapText_tidy (hpad : ∀ b ∈ pad, isIndent b = true) {n : Node}
    (h : EachText (Deep k) (tidy v n))
    (hset : ∀ a ∈ (mapText (shift pad k) (tidy v n)).attributesBy id, Settled v a) :
    tidy v (mapText (shift pad k) (tidy v n)) = mapText (shift pad k) (tidy v n) := by
  induction n using Node.induction with
  | text raw => rfl
  | comment body => rfl
  | element name as children selfClosing ih =>
    rw [tidy] at h hset ⊢
    split at h
    · next hempty =>
      rw [if_pos hempty, mapText, Node.attributesBy] at hset
      obtain ⟨has, -⟩ := List.forall_mem_append.mp hset
      rw [if_pos hempty, mapText, mapTexts, tidy,
        tidyAttributes_of_settled (sortAttributes_map_tidyAttributes _ as) has]
      rfl
    · next hsome =>
      rw [if_neg hsome, mapText, Node.attributesBy] at hset
      obtain ⟨has, hchildren⟩ := List.forall_mem_append.mp hset
      obtain ⟨-, hdeep⟩ := eachText_element_iff.mp h
      -- What is significant stays so, since moving keeps the words of each text.
      have hsame : (Node.significant (mapTexts (shift pad k) (tidyAll v children))).isEmpty
          = (Node.significant children).isEmpty := by
        rw [isEmpty_significant plainWords, gistAll_mapTexts hpad hdeep, gistAll_tidyAll,
          ← isEmpty_significant]
      rw [if_neg hsome, mapText, tidy, hsame, if_neg hsome,
        tidyAttributes_of_settled (sortAttributes_map_tidyAttributes _ as) has]
      have hfix : ∀ m ∈ mapTexts (shift pad k) (tidyAll v children), tidy v m = m := by
        intro m hm
        have hattrs : ∀ a ∈ m.attributesBy id, Settled v a := fun a ha => hchildren a <| by
          rw [Node.attributesByAll_eq_flatMap]
          exact List.mem_flatMap.mpr ⟨m, hm, ha⟩
        rw [mapTexts_eq_map, tidyAll_eq_map, List.map_map] at hm
        obtain ⟨n, hn, rfl⟩ := List.mem_map.mp hm
        have htidy : tidy v n ∈ tidyAll v children := by
          rw [tidyAll_eq_map]
          exact List.mem_map_of_mem hn
        exact ih n hn (hdeep _ htidy) hattrs
      rw [tidyAll_eq_map v (mapTexts _ _), List.map_congr_left hfix, List.map_id']

/-! ## Trimmed nodes -/

/-- Blanks at the beginning end in the first of two texts, if they meet at something that is not
blank. -/
theorem dropWhile_append_of_firm {s t : Bytes} (h : Firm s t) :
    (s ++ t).dropWhile Bytes.isBlank = s.dropWhile Bytes.isBlank ++ t := by
  rw [List.dropWhile_append]
  split
  · next hempty =>
    rw [List.isEmpty_iff.mp hempty, List.nil_append]
    rcases h with ⟨b, hb, hblank⟩ | ⟨b, hb, hblank⟩
    · have hall := List.dropWhile_eq_nil_iff.mp (List.isEmpty_iff.mp hempty)
      rw [hall b (List.mem_of_getLast? hb)] at hblank
      cases hblank
    · obtain ⟨t, rfl⟩ := List.head?_eq_some_iff.mp hb
      rw [List.dropWhile_cons_of_neg (by simp [hblank])]
  · rfl

/-- Blanks at the end begin in the second of two texts, if they meet at something that is not blank.
-/
theorem trimEnd_append_of_firm {s t : Bytes} (h : Firm s t) :
    Bytes.trimEnd Bytes.isBlank (s ++ t) = s ++ Bytes.trimEnd Bytes.isBlank t := by
  have hreverse : Firm t.reverse s.reverse := by
    rcases h with ⟨b, hb, hblank⟩ | ⟨b, hb, hblank⟩
    · exact .inr ⟨b, by rwa [List.head?_reverse], hblank⟩
    · exact .inl ⟨b, by rwa [List.getLast?_reverse], hblank⟩
  rw [Bytes.trimEnd, List.reverse_append, dropWhile_append_of_firm hreverse, List.reverse_append,
    List.reverse_reverse, Bytes.trimEnd]

theorem dropWhile_blanks_append {w : Bytes} (hw : ∀ b ∈ w, Bytes.isBlank b = true) (s : Bytes) :
    (w ++ s).dropWhile Bytes.isBlank = s.dropWhile Bytes.isBlank := by
  rw [List.dropWhile_append, List.dropWhile_eq_nil_iff.mpr hw]
  rfl

theorem trimEnd_append_blanks {w : Bytes} (hw : ∀ b ∈ w, Bytes.isBlank b = true) (s : Bytes) :
    Bytes.trimEnd Bytes.isBlank (s ++ w) = Bytes.trimEnd Bytes.isBlank s := by
  rw [Bytes.trimEnd, List.reverse_append,
    dropWhile_blanks_append (fun b hb => hw b (List.mem_reverse.mp hb)), Bytes.trimEnd]

/-- Blanks around a text are trimmed with it. -/
theorem trim_blanks {w w' : Bytes} (hw : ∀ b ∈ w, Bytes.isBlank b = true)
    (hw' : ∀ b ∈ w', Bytes.isBlank b = true) (s : Bytes) :
    Bytes.trim Bytes.isBlank (w ++ s ++ w') = Bytes.trim Bytes.isBlank s := by
  rw [Bytes.trim, Bytes.trim, List.append_assoc, dropWhile_blanks_append hw, List.dropWhile_append]
  split
  · next hempty =>
    rw [List.isEmpty_iff.mp hempty, List.dropWhile_eq_nil_iff.mpr hw']
  · exact trimEnd_append_blanks hw' _

/-- What is left of a trimmed text does not end with a blank. -/
theorem ends_trim {s : Bytes} (h : Bytes.trim Bytes.isBlank s ≠ []) :
    Ends (Bytes.trim Bytes.isBlank s) := by
  obtain ⟨-, -, -, hlast⟩ := Bytes.exists_of_trimEnd Bytes.isBlank (s.dropWhile Bytes.isBlank)
  have hget := List.getLast?_eq_some_getLast h
  exact ⟨_, hget, hlast _ hget⟩

/-- What is left of a trimmed text does not begin with a blank. -/
theorem begins_trim {s : Bytes} (h : Bytes.trim Bytes.isBlank s ≠ []) :
    Begins (Bytes.trim Bytes.isBlank s) := by
  obtain ⟨w, hs, -, -⟩ := Bytes.exists_of_trimEnd Bytes.isBlank (s.dropWhile Bytes.isBlank)
  rw [← Bytes.trim] at hs
  obtain ⟨b, t, hbt⟩ := List.exists_cons_of_ne_nil h
  refine ⟨b, by rw [hbt]; rfl, head?_dropWhile (s := s) b ?_⟩
  rw [hs, hbt]
  rfl

/-- Nothing is trimmed where there are no blanks. -/
theorem trim_of_begins_of_ends {s : Bytes} (hb : Begins s) (he : Ends s) :
    Bytes.trim Bytes.isBlank s = s := by
  obtain ⟨b, hb, hblank⟩ := hb
  obtain ⟨t, rfl⟩ := List.head?_eq_some_iff.mp hb
  have htrim := trimEnd_append_of_firm (.inl he : Firm (b :: t) [])
  rw [List.append_nil] at htrim
  rw [Bytes.trim, List.dropWhile_cons_of_neg (by simp [hblank]), htrim]
  exact List.append_nil _

/-- Moving a trimmed text leaves it trimmed. -/
theorem trim_shift (pad : Bytes) {k : Nat} {s : Bytes}
    (h : Deep k (Bytes.trim Bytes.isBlank s)) :
    Bytes.trim Bytes.isBlank (shift pad k (Bytes.trim Bytes.isBlank s))
      = shift pad k (Bytes.trim Bytes.isBlank s) := by
  by_cases hnil : Bytes.trim Bytes.isBlank s = []
  · rw [hnil]
    rfl
  · refine trim_of_begins_of_ends ?_ ((ends_trim hnil).shift pad h)
    rw [Begins, head?_shift]
    exact begins_trim hnil

/-- The nodes are the same, or texts of which the second says as much as the first. -/
inductive Alike : Node → Node → Prop
  | refl (n : Node) : Alike n n
  | text {raw raw' : Bytes} (hwords : raw'.words = raw.words) (hsub : ∀ b ∈ raw', b ∈ raw) :
      Alike (.text raw) (.text raw')

theorem Alike.trans {l m n : Node} (h : Alike l m) (h' : Alike m n) : Alike l n := by
  cases h with
  | refl => exact h'
  | text hwords hsub =>
    cases h' with
    | refl => exact .text hwords hsub
    | text hwords' hsub' => exact .text (hwords'.trans hwords) fun b hb => hsub b (hsub' b hb)

theorem forall₂_alike_refl (ns : List Node) : List.Forall₂ Alike ns ns :=
  List.forall₂_same.mpr fun n _ => .refl n

theorem forall₂_alike_trans {ls ms ns : List Node} (h : List.Forall₂ Alike ls ms)
    (h' : List.Forall₂ Alike ms ns) : List.Forall₂ Alike ls ns := by
  induction h generalizing ns with
  | nil => exact h'
  | cons hn _ ih =>
    cases h' with
    | cons hn' hns' => exact .cons (hn.trans hn') (ih hns')

/-- Dropping blanks at the beginning keeps the words. -/
theorem words_dropWhile (s : Bytes) : Bytes.words (s.dropWhile Bytes.isBlank) = s.words := by
  conv_rhs => rw [← List.takeWhile_append_dropWhile (p := Bytes.isBlank) (l := s)]
  exact (Bytes.words_blanks_append (fun b hb => List.mem_takeWhile_imp hb) _).symm

/-- Dropping blanks at the end keeps the words. -/
theorem words_trimEnd (s : Bytes) : (Bytes.trimEnd Bytes.isBlank s).words = s.words := by
  obtain ⟨w, hs, hw, -⟩ := Bytes.exists_of_trimEnd Bytes.isBlank s
  conv_rhs => rw [hs, Bytes.words_append_blanks _ hw]

theorem mem_of_mem_trimEnd {p : UInt8 → Bool} {s : Bytes} {b : UInt8}
    (h : b ∈ Bytes.trimEnd p s) : b ∈ s := by
  obtain ⟨w, hs, -, -⟩ := Bytes.exists_of_trimEnd p s
  rw [hs]
  exact List.mem_append_left w h

/-- The nodes without the blanks that they begin with. -/
def trimFirst : List Node → List Node
  | .text raw :: ns => .text (raw.dropWhile Bytes.isBlank) :: ns
  | ns => ns

/-- The nodes without the blanks that they end with. -/
def trimLast : List Node → List Node
  | [] => []
  | [.text raw] => [.text (Bytes.trimEnd Bytes.isBlank raw)]
  | n :: ns => n :: trimLast ns

/-- Only a text is trimmed. -/
theorem trimFirst_cons {n : Node} (h : n.isText = false) (ns : List Node) :
    trimFirst (n :: ns) = n :: ns := by
  cases n with
  | text raw => cases h
  | _ => rfl

theorem trimLast_singleton {n : Node} (h : n.isText = false) : trimLast [n] = [n] := by
  cases n with
  | text raw => cases h
  | _ => rfl

theorem trimLast_cons (n m : Node) (ns : List Node) :
    trimLast (n :: m :: ns) = n :: trimLast (m :: ns) := by
  cases n <;> rfl

theorem forall₂_alike_trimFirst (ns : List Node) : List.Forall₂ Alike ns (trimFirst ns) := by
  unfold trimFirst
  split
  · next raw ns =>
    refine .cons (.text (words_dropWhile raw) fun b hb => ?_) (forall₂_alike_refl ns)
    exact (List.dropWhile_sublist _).mem hb
  · exact forall₂_alike_refl _

theorem forall₂_alike_trimLast (ns : List Node) : List.Forall₂ Alike ns (trimLast ns) := by
  fun_induction trimLast ns with
  | case1 => exact .nil
  | case2 raw => exact .cons (.text (words_trimEnd raw) fun b hb => mem_of_mem_trimEnd hb) .nil
  | case3 n ns _ ih => exact .cons (.refl n) ih

/-- To trim the first node is to trim the whole text on the left. -/
theorem writeAll_trimFirst {ns : List Node} (h : Apart ns) :
    writeAll (trimFirst ns) = (writeAll ns).dropWhile Bytes.isBlank := by
  cases ns with
  | nil => rfl
  | cons n ns =>
    cases ht : n.isText with
    | false =>
      obtain ⟨b, hb, hblank⟩ := begins_append (begins_write ht) (writeAll ns)
      obtain ⟨t, hbt⟩ := List.head?_eq_some_iff.mp hb
      rw [trimFirst_cons ht, writeAll, hbt, List.dropWhile_cons_of_neg (by simp [hblank])]
    | true =>
      obtain ⟨raw, rfl⟩ := Node.isText_iff.mp ht
      cases ns with
      | nil => simp [trimFirst, writeAll, write]
      | cons m ns => exact (dropWhile_append_of_firm (firm_writeAll h)).symm

/-- To trim the last node is to trim the whole text on the right. -/
theorem writeAll_trimLast {ns : List Node} (h : Apart ns) :
    writeAll (trimLast ns) = Bytes.trimEnd Bytes.isBlank (writeAll ns) := by
  induction ns with
  | nil => rfl
  | cons n ns ih =>
    cases ns with
    | cons m ns =>
      rw [trimLast_cons, writeAll, ih h.of_cons, writeAll.eq_2 n,
        trimEnd_append_of_firm (firm_writeAll h)]
    | nil =>
      cases ht : n.isText with
      | false =>
        have htrim := trimEnd_append_of_firm (.inl (ends_write ht) : Firm (write n) [])
        rw [trimLast_singleton ht, writeAll, writeAll, htrim]
        rfl
      | true =>
        obtain ⟨raw, rfl⟩ := Node.isText_iff.mp ht
        simp [trimLast, writeAll, write]

/-- Nodes that are alike have their texts in the same places. -/
theorem apart_of_alike {ns ms : List Node} (h : Apart ns) (halike : List.Forall₂ Alike ns ms) :
    Apart ms := by
  have hmap : ms.map Node.isText = ns.map Node.isText := by
    induction halike with
    | nil => rfl
    | cons hn _ ih =>
      rw [List.map_cons, List.map_cons, ih (List.IsChain.of_cons h)]
      cases hn <;> rfl
  have hchain {ns : List Node} : Apart ns
      ↔ (ns.map Node.isText).IsChain fun b c => b = true → c = false := by
    rw [List.isChain_map]
    rfl
  rw [hchain, hmap, ← hchain]
  exact h

theorem forall₂_alike_trim (ns : List Node) : List.Forall₂ Alike ns (trimLast (trimFirst ns)) :=
  forall₂_alike_trans (forall₂_alike_trimFirst ns) (forall₂_alike_trimLast _)

/-- **Trimming a text trims the nodes at its ends.** -/
theorem writeAll_trim {ns : List Node} (h : Apart ns) :
    writeAll (trimLast (trimFirst ns)) = Bytes.trim Bytes.isBlank (writeAll ns) := by
  have hfirst := apart_of_alike h (forall₂_alike_trimFirst ns)
  rw [writeAll_trimLast hfirst, writeAll_trimFirst h, Bytes.trim]

/-! ## What nodes convey -/

/-- The second attribute is the first one in canonical form, possibly moved. -/
def Carried (v : Vocabulary) (a a' : Attribute) : Prop :=
  a'.key = a.key ∧ (a'.value = value v a ∨ ∃ pad k, (∀ b ∈ pad, isIndent b = true) ∧
    Deep k (value v a) ∧ a'.value = shift pad k (value v a))

/-- The nodes `ms` say what `ns` say, in canonical form and order, and are no deeper. -/
structure Conveys (v : Vocabulary) (ns ms : List Node) : Prop where
  gist : Node.gistAll plainWords ms = Node.gistAll (canonicalWords v) ns
  nesting : Node.nestingAll ms ≤ Node.nestingAll ns
  carried : List.Forall₂ (Carried v) (Node.attributesByAll sortAttributes ns)
    (Node.attributesByAll id ms)
  sorted : Node.attributesByAll sortAttributes ms = Node.attributesByAll id ms

theorem Conveys.nil : Conveys v [] [] := ⟨rfl, Nat.le_refl _, .nil, rfl⟩

/-- What is conveyed part by part is conveyed as a whole. -/
theorem Conveys.append {ns ns' ms ms' : List Node} (h : Conveys v ns ms)
    (h' : Conveys v ns' ms') : Conveys v (ns ++ ns') (ms ++ ms') where
  gist := by rw [Node.gistAll_append, Node.gistAll_append, h.gist, h'.gist]
  nesting := by
    rw [Node.nestingAll_append, Node.nestingAll_append]
    exact max_le_max h.nesting h'.nesting
  carried := by
    rw [Node.attributesByAll_append, Node.attributesByAll_append]
    exact List.rel_append h.carried h'.carried
  sorted := by
    rw [Node.attributesByAll_append, Node.attributesByAll_append, h.sorted, h'.sorted]

theorem Conveys.cons {n m : Node} {ns ms : List Node} (h : Conveys v [n] [m])
    (h' : Conveys v ns ms) : Conveys v (n :: ns) (m :: ms) := h.append h'

/-- A blank text says nothing. -/
theorem Conveys.blank {raw : Bytes} (h : ∀ b ∈ raw, Bytes.isBlank b = true) :
    Conveys v [] [.text raw] := by
  refine ⟨?_, Nat.le_refl _, .nil, rfl⟩
  rw [Node.gistAll_text_blank h]
  rfl

/-- A text made of blanks conveys nothing. -/
theorem Conveys.of_blank {n : Node} (h : n.isBlank = true) : Conveys v [n] [] := by
  cases n with
  | text raw =>
    refine ⟨?_, Nat.zero_le _, .nil, rfl⟩
    rw [Node.gistAll_text_blank (List.all_eq_true.mp h)]
    rfl
  | _ => cases h

/-- How text is cut into pieces conveys nothing. -/
theorem Conveys.glue {ns ms : List Node} (h : Conveys v ns ms) (hapart : Apart ns) :
    Conveys v ns (glue ms) where
  gist := by
    rw [Node.gistAll_glue, h.gist]
    rw [h.gist]
    exact Node.gistAll_apart hapart
  nesting := by rw [Node.nestingAll_glue]; exact h.nesting
  carried := by rw [Node.attributesByAll_glue]; exact h.carried
  sorted := by rw [Node.attributesByAll_glue, Node.attributesByAll_glue, h.sorted]

/-- What holds of all texts holds of all values. -/
theorem EachText.forall_attributes {p : Bytes → Prop} {n : Node} (h : EachText p n) :
    ∀ a ∈ n.attributesBy id, p a.value := by
  induction h with
  | text | comment => simp [Node.attributesBy]
  | element has _ ih =>
    rw [Node.attributesBy, Node.attributesByAll_eq_flatMap]
    intro a ha
    rcases List.mem_append.mp ha with ha | ha
    · exact has a ha
    · obtain ⟨n, hn, ha⟩ := List.mem_flatMap.mp ha
      exact ih n hn a ha

/-- A node and what comes of it in running text, before that is moved. -/
def Flows (v : Vocabulary) (n t : Node) : Prop := n.Sound ∧ Alike (tidy v n) t

section

variable {n t : Node}

theorem Flows.movesAlone (h : Flows v n t) (hc : n.hasComment = false) : MovesAlone pad k t := by
  obtain ⟨hsound, halike⟩ := h
  cases ht : t.isText with
  | true =>
    obtain ⟨raw, rfl⟩ := Node.isText_iff.mp ht
    exact movesAlone_text raw
  | false =>
    generalize htidy : tidy v n = m at halike
    cases halike with
    | text => cases ht
    | refl =>
      rw [← htidy]
      refine Canonical.movesAlone (tidy_sound hsound) ?_
      rw [← Node.hasComment_gist plainWords, gist_tidy, Node.hasComment_gist, hc]

variable (hpad : ∀ b ∈ pad, isIndent b = true)
include hpad

/-- **A node in running text conveys the same when its lines are moved.** -/
theorem Flows.conveys (h : Flows v n t) (hdeep : EachText (Deep k) t) :
    Conveys v [n] [mapText (shift pad k) t] := by
  obtain ⟨hsound, halike⟩ := h
  generalize htidy : tidy v n = m at halike
  have hgist := gistAll_tidyAll v [n]
  have hmoved : Node.gistAll plainWords [mapText (shift pad k) t] = Node.gistAll plainWords [t] :=
    gistAll_mapTexts hpad (List.forall_mem_singleton.mpr hdeep)
  rw [tidyAll, tidyAll, htidy] at hgist
  cases halike with
  | text hwords hsub =>
    obtain ⟨raw, rfl⟩ : ∃ raw, n = .text raw := by
      rw [← Node.isText_iff, ← isText_tidy v, htidy]
      rfl
    refine ⟨?_, Nat.le_refl _, .nil, rfl⟩
    rw [hmoved, ← hgist, Node.gistAll_text, Node.gistAll_text, Node.gistText, Node.gistText, hwords]
  | refl =>
    refine ⟨hmoved.trans hgist, ?_, ?_, ?_⟩
    · rw [Node.nestingAll, Node.nestingAll, nesting_mapText, ← htidy]
      exact max_le_max (nesting_tidy_le hsound) (Nat.le_refl _)
    · rw [Node.attributesByAll, Node.attributesByAll, Node.attributesByAll, Node.attributesByAll,
        List.append_nil, List.append_nil, attributesBy_mapText, ← htidy, attributesBy_tidy,
        List.map_map, List.forall₂_map_right_iff, List.forall₂_same]
      intro a ha
      refine ⟨rfl, .inr ⟨pad, k, hpad, ?_, rfl⟩⟩
      refine hdeep.forall_attributes ⟨a.key, value v a⟩ ?_
      rw [← htidy, attributesBy_tidy]
      exact List.mem_map_of_mem ha
    · rw [Node.attributesByAll, Node.attributesByAll, ← htidy, attributesBy_sort_mapText_tidy]
      rfl

/-- A moved node is tidy if its values are settled. -/
theorem Flows.tidy (h : Flows v n t) (hdeep : EachText (Deep k) t)
    (hset : ∀ a ∈ (mapText (shift pad k) t).attributesBy id, Settled v a) :
    tidy v (mapText (shift pad k) t) = mapText (shift pad k) t := by
  obtain ⟨-, halike⟩ := h
  generalize htidy : Canonical.tidy v n = m at halike
  cases halike with
  | text => rfl
  | refl =>
    subst htidy
    exact tidy_mapText_tidy hpad hdeep hset

/-- A moved node can be read from what is written of it. -/
theorem Flows.loose (h : Flows v n t) (k : Nat) (void : NameSet) :
    Loose void [mapText (shift pad k) t] (write (mapText (shift pad k) t)) := by
  obtain ⟨hsound, halike⟩ := h
  have htidy := tidy_sound (v := v) hsound
  generalize Canonical.tidy v n = m at halike htidy
  cases halike with
  | text hwords hsub =>
    obtain ⟨-, hraw⟩ := htidy
    exact .singleton_text (not_mem_shift hpad (by decide) fun hmem => hraw (hsub _ hmem))
  | refl =>
    have hmoved : Loose void [mapText (shift pad k) t] (writeAll [mapText (shift pad k) t]) :=
      loose_writeAll void (List.forall_mem_singleton.mpr (mapText_sound hpad htidy))
    rwa [writeAll, writeAll, List.append_nil] at hmoved

end

/-! ## Runs -/

/-- The running text `s` of the nodes `ns`, moved behind the indentation `pad`, is the plain form of
the nodes `ms`. -/
structure Run (v : Vocabulary) (pad s : Bytes) (ns ms : List Node) : Prop where
  text : writeAll ms = shift pad (commonIndentation s.lines.tail) s
  conveys : Conveys v ns ms
  loose : ∀ void, Loose void ms (writeAll ms)
  tidy : (∀ a ∈ Node.attributesByAll id ms, Settled v a) → tidyAll v ms = ms

section

variable {ns ts : List Node}

/-- The nodes of a run are moved one by one. -/
theorem moved_writeAll (h : List.Forall₂ (Flows v) ns ts) (hapart : Apart ts)
    (hc : ∀ n ∈ ns, n.hasComment = false) : Moved pad k (writeAll ts)
      (∀ t ∈ ts, EachText (Deep k) t) (writeAll (mapTexts (shift pad k) ts)) := by
  refine moved_writeAll_of_forall hapart ?_
  clear hapart
  induction h with
  | nil => simp
  | cons hn _ ih =>
    obtain ⟨hcn, hcns⟩ := List.forall_mem_cons.mp hc
    exact List.forall_mem_cons.mpr ⟨hn.movesAlone hcn, ih hcns⟩

/-- The nodes of a run, tidy and trimmed: what is moved as a block of lines. -/
def trimmed (v : Vocabulary) (ns : List Node) : List Node := trimLast (trimFirst (tidyAll v ns))

/-- Trimming a run changes none of its nodes but texts at the ends, and those by blanks. -/
theorem flows_trimmed (h : ∀ n ∈ ns, n.Sound) : List.Forall₂ (Flows v) ns (trimmed v ns) := by
  have halike : List.Forall₂ Alike (ns.map (tidy v)) (trimmed v ns) := by
    rw [← tidyAll_eq_map]
    exact forall₂_alike_trim _
  exact (List.forall₂_and_left _ _).mpr ⟨h, List.forall₂_map_left_iff.mp halike⟩

section

variable (hapart : Apart ns)
include hapart

/-- In a tidy run no text is next to another, if this was so before. -/
theorem apart_tidyAll : Apart (tidyAll v ns) := by
  rw [tidyAll_eq_map]
  exact hapart.map (isText_tidy v)

theorem apart_trimmed : Apart (trimmed v ns) :=
  apart_of_alike (apart_tidyAll hapart) (forall₂_alike_trim _)

/-- The trimmed nodes are what is written of the run without the blanks around it. -/
theorem writeAll_trimmed :
    writeAll (trimmed v ns) = Bytes.trim Bytes.isBlank (inlineAll v ns) := by
  rw [trimmed, writeAll_trim (apart_tidyAll hapart), inlineAll_eq]

variable (hsound : ∀ n ∈ ns, n.Sound) (hc : ∀ n ∈ ns, n.hasComment = false)
include hsound hc

/-- To move the lines of a run is to move those of its texts and values. -/
theorem moved_trimmed (pad : Bytes) (k : Nat) :
    Moved pad k (Bytes.trim Bytes.isBlank (inlineAll v ns))
      (∀ t ∈ trimmed v ns, EachText (Deep k) t)
      (writeAll (mapTexts (shift pad k) (trimmed v ns))) := by
  rw [← writeAll_trimmed hapart]
  exact moved_writeAll (flows_trimmed hsound) (apart_trimmed hapart) hc

/-- All texts and values in a run have the indentation that is common to its lines. -/
theorem deep_trimmed : ∀ t ∈ trimmed v ns, EachText
    (Deep (commonIndentation (Bytes.trim Bytes.isBlank (inlineAll v ns)).lines.tail)) t := by
  refine (moved_trimmed hapart hsound hc [] _).deep.mp (deep_commonIndentation fun h => ?_)
  exact ends_trim (List.ne_nil_of_mem h)

end

/-- There is nothing to trim around an element. -/
theorem trim_inlineAll_singleton {n : Node} (ht : n.isText = false) :
    Bytes.trim Bytes.isBlank (inlineAll v [n]) = inline v n := by
  have htidy : (tidy v n).isText = false := by rw [isText_tidy, ht]
  rw [inlineAll, inlineAll, List.append_nil, inline_eq]
  exact trim_of_begins_of_ends (begins_write htidy) (ends_write htidy)

variable (hpad : ∀ b ∈ pad, isIndent b = true)
include hpad

/-- A run conveys the same when its lines are moved. -/
theorem conveys_mapTexts (h : List.Forall₂ (Flows v) ns ts)
    (hdeep : ∀ t ∈ ts, EachText (Deep k) t) : Conveys v ns (mapTexts (shift pad k) ts) := by
  induction h with
  | nil => exact .nil
  | cons hn _ ih =>
    obtain ⟨hdn, hdns⟩ := List.forall_mem_cons.mp hdeep
    exact (hn.conveys hpad hdn).cons (ih hdns)

/-- A moved run can be read from what is written of it. -/
theorem loose_mapTexts (h : List.Forall₂ (Flows v) ns ts) (k : Nat) (void : NameSet) :
    Loose void (mapTexts (shift pad k) ts) (writeAll (mapTexts (shift pad k) ts)) := by
  induction h with
  | nil => exact .nil
  | cons hn _ ih => exact (hn.loose hpad k void).append ih

/-- A moved run is tidy if its values are settled. -/
theorem tidyAll_mapTexts (h : List.Forall₂ (Flows v) ns ts)
    (hdeep : ∀ t ∈ ts, EachText (Deep k) t)
    (hset : ∀ a ∈ Node.attributesByAll id (mapTexts (shift pad k) ts), Settled v a) :
    tidyAll v (mapTexts (shift pad k) ts) = mapTexts (shift pad k) ts := by
  induction h with
  | nil => rfl
  | cons hn _ ih =>
    obtain ⟨hdn, hdns⟩ := List.forall_mem_cons.mp hdeep
    obtain ⟨hsn, hsns⟩ := List.forall_mem_append.mp hset
    rw [mapTexts, tidyAll, hn.tidy hpad hdn hsn, ih hdns hsns]

/-- **A run can be read as the nodes it was made of.** -/
theorem run_trimmed (hapart : Apart ns) (hsound : ∀ n ∈ ns, n.Sound)
    (hc : ∀ n ∈ ns, n.hasComment = false) :
    Run v pad (Bytes.trim Bytes.isBlank (inlineAll v ns)) ns (mapTexts
      (shift pad (commonIndentation (Bytes.trim Bytes.isBlank (inlineAll v ns)).lines.tail))
      (trimmed v ns)) := by
  have hflows : List.Forall₂ (Flows v) ns (trimmed v ns) := flows_trimmed hsound
  have hdeep := deep_trimmed (v := v) hapart hsound hc
  exact ⟨((moved_trimmed hapart hsound hc pad _).out hdeep).symm,
    conveys_mapTexts hpad hflows hdeep, loose_mapTexts hpad hflows _,
    tidyAll_mapTexts hpad hflows hdeep⟩

/-- An element that is running text as a whole can be read as it was. -/
theorem exists_run_element {n : Node} (hsound : n.Sound) (ht : n.isText = false)
    (hc : n.hasComment = false) : ∃ m, m.isText = false ∧ Run v pad (inline v n) [n] [m] := by
  have htidy : (tidy v n).isText = false := by rw [isText_tidy, ht]
  have htrimmed : trimmed v [n] = [tidy v n] := by
    rw [trimmed, tidyAll, tidyAll, trimFirst_cons htidy, trimLast_singleton htidy]
  have hrun := run_trimmed (v := v) hpad (.singleton n) (List.forall_mem_singleton.mpr hsound)
    (List.forall_mem_singleton.mpr hc)
  rw [trim_inlineAll_singleton ht, htrimmed] at hrun
  exact ⟨_, by rw [isText_mapText, htidy], hrun⟩

end

end Canonical

end LayoutMarkup

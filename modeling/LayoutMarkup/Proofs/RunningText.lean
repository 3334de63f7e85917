import LayoutMarkup.Canonical.Inline
import LayoutMarkup.Proofs.Gist
import LayoutMarkup.Proofs.Values
import Mathlib.Data.List.Sort

/-!
# Proofs/RunningText — trees in running text

Running text is the plain form (`write`) of tidy nodes: those with their attributes in canonical
form and order, and without content that is only blank (`inline_eq`).  The plain form of sound nodes
can be read again (`forms_write`), and tidying keeps their gist (`gist_tidy`).
-/

namespace LayoutMarkup

/-! ## The order of attributes -/

/-- The attributes `bs` are `as` in the order of their keys; those with the same key keep theirs. -/
structure Attribute.Ordered (as bs : List Attribute) : Prop where
  keys : bs.Pairwise fun a b => a.key ≤ b.key
  same : ∀ key, bs.filter (·.key == key) = as.filter (·.key == key)

namespace Canonical

/-- The order is that of a stable insertion sort. -/
theorem sortAttributes_eq (as : List Attribute) :
    sortAttributes as = as.insertionSort fun a b => a.key ≤ b.key := by
  have hplace (a : Attribute) (bs : List Attribute) :
      placeAttribute a bs = bs.orderedInsert (fun a b => a.key ≤ b.key) a := by
    induction bs with
    | nil => rfl
    | cons b bs ih => rw [placeAttribute, List.orderedInsert_cons, ih]
  induction as with
  | nil => rfl
  | cons a as ih =>
    rw [sortAttributes] at ih ⊢
    rw [List.foldr_cons, ih, hplace, List.insertionSort_cons]

/-- No attribute is lost, and none is added. -/
theorem perm_sortAttributes (as : List Attribute) : (sortAttributes as).Perm as := by
  rw [sortAttributes_eq]
  exact List.perm_insertionSort _ as

instance : Std.Total fun a b : Attribute => a.key ≤ b.key := ⟨fun a b => List.le_total a.key b.key⟩

instance : IsTrans Attribute fun a b => a.key ≤ b.key :=
  ⟨fun _ _ _ hab hbc => List.le_trans hab hbc⟩

/-- The keys come in order. -/
theorem pairwise_sortAttributes (as : List Attribute) :
    (sortAttributes as).Pairwise fun a b => a.key ≤ b.key := by
  rw [sortAttributes_eq]
  exact List.pairwise_insertionSort _ as

/-- Attributes that are in order stay as they are. -/
theorem sortAttributes_of_pairwise {as : List Attribute}
    (h : as.Pairwise fun a b => a.key ≤ b.key) : sortAttributes as = as := by
  rw [sortAttributes_eq, h.insertionSort_eq]

/-- Sorting is stable. -/
theorem ordered_sortAttributes (as : List Attribute) :
    Attribute.Ordered as (sortAttributes as) where
  keys := pairwise_sortAttributes as
  same key := by
    have hkey : ∀ a ∈ as.filter (·.key == key), a.key = key := fun a ha => by
      simpa using (List.mem_filter.mp ha).2
    have hpairwise : (as.filter (·.key == key)).Pairwise fun a b => a.key ≤ b.key :=
      List.pairwise_of_forall_mem_list fun a ha b hb => by
        rw [hkey a ha, hkey b hb]
        exact List.le_refl key
    have hsub : (as.filter (·.key == key)).Sublist ((sortAttributes as).filter (·.key == key)) := by
      have h := (List.sublist_insertionSort hpairwise List.filter_sublist).filter (·.key == key)
      rw [sortAttributes_eq]
      simpa only [List.filter_filter, Bool.and_self] using h
    exact (hsub.eq_of_length ((perm_sortAttributes as).filter _).length_eq.symm).symm

/-! ## Tidy nodes -/

/-- The attributes in canonical form and order. -/
def tidyAttributes (v : Vocabulary) (as : List Attribute) : List Attribute :=
  (sortAttributes as).map fun a => ⟨a.key, value v a⟩

mutual

/-- The node as it comes out in running text. -/
def tidy (v : Vocabulary) : Node → Node
  | .text raw => .text raw
  | .comment body => .comment body
  | .element name attributes children _ =>
    if (Node.significant children).isEmpty then .element name (tidyAttributes v attributes) [] true
    else .element name (tidyAttributes v attributes) (tidyAll v children) false

/-- The nodes as they come out in running text. -/
def tidyAll (v : Vocabulary) : List Node → List Node
  | [] => []
  | n :: nodes => tidy v n :: tidyAll v nodes

end

/-- The plain form of an attribute. -/
def pairText (a : Attribute) : Bytes := a.key ++ Bytes.utf8 "=\"" ++ a.value ++ Bytes.utf8 "\""

/-- The plain form of a start tag, up to its last attribute. -/
def tagText (name : Bytes) (as : List Attribute) : Bytes :=
  Bytes.utf8 "<" ++ name ++ as.flatMap fun a => Bytes.utf8 " " ++ pairText a

mutual

/-- The plain form of a node. -/
def write : Node → Bytes
  | .text raw => raw
  | .comment body => commentText body
  | .element name attributes children selfClosing =>
    tagText name attributes ++
      if selfClosing then Bytes.utf8 "/>"
      else Bytes.utf8 ">" ++ writeAll children ++ closingTag name

/-- The plain form of nodes. -/
def writeAll : List Node → Bytes
  | [] => []
  | n :: nodes => write n ++ writeAll nodes

end

variable {v : Vocabulary}

theorem tidyAll_eq_map (v : Vocabulary) (ns : List Node) : tidyAll v ns = ns.map (tidy v) := by
  induction ns with
  | nil => rfl
  | cons n ns ih => rw [tidyAll, ih, List.map_cons]

theorem writeAll_append (ns ms : List Node) : writeAll (ns ++ ms) = writeAll ns ++ writeAll ms := by
  induction ns with
  | nil => rfl
  | cons n ns ih => rw [List.cons_append, writeAll, writeAll, ih, List.append_assoc]

/-- A tag on one line is written with the tidy attributes as they stand. -/
theorem inlineTag_eq (name : Bytes) (as : List Attribute) :
    inlineTag v name as = tagText name (tidyAttributes v as) := by
  rw [inlineTag, tagText, tidyAttributes, List.flatMap_map]
  rfl

/-- The step of the induction behind `inline_eq`, from children to their parent. -/
theorem inlineAll_of_forall {ns : List Node} (h : ∀ n ∈ ns, inline v n = write (tidy v n)) :
    inlineAll v ns = writeAll (tidyAll v ns) := by
  induction ns with
  | nil => rfl
  | cons n ns ih =>
    obtain ⟨hn, hns⟩ := List.forall_mem_cons.mp h
    rw [inlineAll, tidyAll, writeAll, hn, ih hns]

/-- **Running text is the plain form of tidy nodes.** -/
theorem inline_eq (v : Vocabulary) (n : Node) : inline v n = write (tidy v n) := by
  induction n using Node.induction with
  | text raw => rfl
  | comment body => rfl
  | element name as children selfClosing ih =>
    rw [inline, tidy, inlineTag_eq]
    split
    · rfl
    · rw [write, inlineAll_of_forall ih]
      simp

/-- Running text is the plain form of the tidy nodes. -/
theorem inlineAll_eq (v : Vocabulary) (ns : List Node) :
    inlineAll v ns = writeAll (tidyAll v ns) := inlineAll_of_forall fun n _ => inline_eq v n

/-! ## The plain form can be read -/

/-- The plain form of an attribute can be read. -/
theorem pairText_written {a : Attribute} (h : a.Sound) : a.Written (pairText a) := by
  have hform : a.Written (a.key ++ ([] ++ Bytes.utf8 "=" ++ [] ++ Bytes.utf8 "\"" ++ a.value
      ++ Bytes.utf8 "\"")) := .intro h.key (by simp) (by simp) h.value
  have heq : Bytes.utf8 "=\"" = Bytes.utf8 "=" ++ Bytes.utf8 "\"" := by decide
  rw [pairText, heq]
  simpa using hform

/-- Attributes with a space before each of them can be read. -/
theorem pairsText_written {as : List Attribute} (has : ∀ a ∈ as, a.Sound) :
    Attribute.AllWritten as (as.flatMap fun a => Bytes.utf8 " " ++ pairText a) := by
  induction as with
  | nil => exact .nil
  | cons a as ih =>
    obtain ⟨ha, has⟩ := List.forall_mem_cons.mp has
    exact .cons (by decide) (pairText_written ha) (ih has)

/-- The plain form of a start tag can be read. -/
theorem startTag_written {name : Bytes} {as : List Attribute} (hname : name.IsName)
    (has : ∀ a ∈ as, a.Sound) : StartTag.Written ⟨name, as⟩ (tagText name as) := by
  have hgap : ∀ b ∈ (as.flatMap fun a => Bytes.utf8 " " ++ pairText a).head?,
      Bytes.isBlank b = true := by
    cases as with
    | nil => simp
    | cons a as =>
      intro b hb
      obtain rfl : 0x20 = b := Option.some.inj hb
      decide
  have h := StartTag.Written.intro hname (pairsText_written has) hgap (w := []) (by simp)
  rwa [List.append_nil] at h

/-- Where no text is next to another, there is nothing to put together. -/
theorem glue_eq_self {ns : List Node} (hsound : ∀ n ∈ ns, n.Sound) (hapart : Apart ns) :
    glue ns = ns := by
  rw [glue_eq_filter hapart, List.filter_eq_self]
  intro n hn
  rw [decide_eq_true_iff]
  rintro rfl
  obtain ⟨hne, -⟩ := hsound _ hn
  exact hne rfl

/-- Nodes can be read one after the other, if each can be read on its own. -/
theorem loose_of_forms {void : NameSet} {ns : List Node} (hsound : ∀ n ∈ ns, n.Sound)
    (hforms : ∀ n ∈ ns, n.isText = false → n.Forms void (write n)) :
    Loose void ns (writeAll ns) := by
  induction ns with
  | nil => exact .nil
  | cons n ns ih =>
    obtain ⟨hn, hns⟩ := List.forall_mem_cons.mp hsound
    obtain ⟨hform, hforms⟩ := List.forall_mem_cons.mp hforms
    have hrest := ih hns hforms
    cases ht : n.isText with
    | false => exact .node (hform ht) hrest
    | true =>
      obtain ⟨raw, rfl⟩ := Node.isText_iff.mp ht
      obtain ⟨-, hraw⟩ := hn
      exact .text hraw hrest

/-- **The plain form of a node can be read.** -/
theorem forms_write (void : NameSet) {n : Node} (h : n.Sound) (ht : n.isText = false) :
    n.Forms void (write n) := by
  induction n using Node.induction with
  | text raw => cases ht
  | comment body =>
    obtain _ | hbody := h
    exact ⟨rfl, fun closer ns t hns => .comment hbody hns⟩
  | element name as children selfClosing ih =>
    obtain _ | _ | ⟨hname, has, hchildren, hapart, hself⟩ := h
    have htag := startTag_written hname has
    refine ⟨rfl, fun closer ns t hns => ?_⟩
    cases selfClosing with
    | true =>
      rw [hself rfl]
      exact .selfClosing htag hns
    | false =>
      have hloose : Loose void children (writeAll children) :=
        loose_of_forms hchildren fun n hn => ih n hn (hchildren n hn)
      have hglue : Document.Written void (some name) (glue children) (writeAll children) :=
        hloose.written
      rw [glue_eq_self hchildren hapart] at hglue
      have hclosed := Document.Written.closed htag hglue (w := []) (by simp) hns
      simpa [write, closingTag] using hclosed

/-- The plain form of nodes can be read. -/
theorem loose_writeAll (void : NameSet) {ns : List Node} (hsound : ∀ n ∈ ns, n.Sound) :
    Loose void ns (writeAll ns) := loose_of_forms hsound fun n hn => forms_write void (hsound n hn)

/-! ## Tidying keeps the gist -/

/-- What attributes say as they stand. -/
def plainWords (as : List Attribute) : List (Bytes × List Bytes) :=
  as.map fun a => (a.key, a.value.words)

/-- What attributes say in canonical form and order. -/
def canonicalWords (v : Vocabulary) (as : List Attribute) : List (Bytes × List Bytes) :=
  (sortAttributes as).map fun a => (a.key, (value v a).words)

/-- The words of tidy attributes are those of the canonical values. -/
theorem plainWords_tidyAttributes (v : Vocabulary) (as : List Attribute) :
    plainWords (tidyAttributes v as) = canonicalWords v as := by
  rw [plainWords, tidyAttributes, List.map_map]
  rfl

theorem isText_tidy (v : Vocabulary) (n : Node) : (tidy v n).isText = n.isText := by
  cases n with
  | element =>
    rw [tidy]
    split <;> rfl
  | _ => rfl

theorem isBlank_tidy (v : Vocabulary) (n : Node) : (tidy v n).isBlank = n.isBlank := by
  cases n with
  | element =>
    rw [tidy]
    split <;> rfl
  | _ => rfl

/-- The step of the induction behind `gist_tidy`, from children to their parent. -/
theorem gistAll_tidyAll_of_forall {ns : List Node}
    (h : ∀ n ∈ ns, (tidy v n).gist plainWords = n.gist (canonicalWords v)) :
    Node.gistAll plainWords (tidyAll v ns) = Node.gistAll (canonicalWords v) ns := by
  induction ns with
  | nil => rfl
  | cons n ns ih =>
    obtain ⟨hn, hns⟩ := List.forall_mem_cons.mp h
    rw [tidyAll, Node.gistAll, Node.gistAll, isBlank_tidy, hn, ih hns]

/-- **Tidying a node keeps its gist**, apart from the words of its values. -/
theorem gist_tidy (v : Vocabulary) (n : Node) :
    (tidy v n).gist plainWords = n.gist (canonicalWords v) := by
  induction n using Node.induction with
  | text raw => rfl
  | comment body => rfl
  | element name as children selfClosing ih =>
    rw [tidy]
    split
    · next hempty =>
      rw [Node.gist, Node.gist, plainWords_tidyAttributes, Node.gistAll_eq_map (canonicalWords v),
        List.isEmpty_iff.mp hempty]
      rfl
    · rw [Node.gist, Node.gist, plainWords_tidyAttributes, gistAll_tidyAll_of_forall ih]

theorem gistAll_tidyAll (v : Vocabulary) (ns : List Node) :
    Node.gistAll plainWords (tidyAll v ns) = Node.gistAll (canonicalWords v) ns :=
  gistAll_tidyAll_of_forall fun n _ => gist_tidy v n

/-- Tidy attributes can be written down, since no canonical value has a quote in it. -/
theorem tidyAttributes_sound {as : List Attribute} (h : ∀ a ∈ as, a.Sound) :
    ∀ a ∈ tidyAttributes v as, a.Sound := by
  intro a ha
  obtain ⟨b, hb, rfl⟩ := List.mem_map.mp ha
  have hb := h b ((perm_sortAttributes as).mem_iff.mp hb)
  exact ⟨hb.key, quote_not_mem_value hb.value⟩

/-- A tidy node can be written down. -/
theorem tidy_sound {n : Node} (h : n.Sound) : (tidy v n).Sound := by
  induction n using Node.induction with
  | text raw => exact h
  | comment body => exact h
  | element name as children selfClosing ih =>
    obtain _ | _ | ⟨hname, has, hchildren, hapart, -⟩ := h
    rw [tidy]
    split
    · exact .element hname (tidyAttributes_sound has) (by simp) .nil fun _ => rfl
    · rw [tidyAll_eq_map]
      refine .element hname (tidyAttributes_sound has) (fun n hn => ?_)
        (hapart.map (isText_tidy v)) (by simp)
      obtain ⟨m, hm, rfl⟩ := List.mem_map.mp hn
      exact ih m hm (hchildren m hm)

/-- Tidying does not nest anything deeper. -/
theorem nesting_tidy_le {n : Node} (h : n.Sound) : (tidy v n).nesting ≤ n.nesting := by
  induction n using Node.induction with
  | text raw => exact Nat.le_refl _
  | comment body => exact Nat.le_refl _
  | element name as children selfClosing ih =>
    obtain _ | _ | ⟨-, -, hchildren, -, hself⟩ := h
    rw [tidy]
    split
    · simp [Node.nesting]
    · next hsome =>
      have hopen : selfClosing = false := by
        by_contra hs
        rw [hself (by simpa using hs)] at hsome
        exact hsome rfl
      have hle : Node.nestingAll (tidyAll v children) ≤ Node.nestingAll children := by
        rw [Node.nestingAll_le_iff, tidyAll_eq_map]
        intro n hn
        obtain ⟨m, hm, rfl⟩ := List.mem_map.mp hn
        exact (ih m hm (hchildren m hm)).trans (Node.nesting_le_nestingAll hm)
      simpa [Node.nesting, hopen] using hle

end Canonical

end LayoutMarkup

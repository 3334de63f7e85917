import LayoutMarkup.Proofs.Grammar
import Mathlib.Data.List.Chain

/-!
# Proofs/Trees — which trees can be written, and out of which parts

The nodes of a document are sound: no text holds an opening mark, no two texts stand side by side,
and so on (`Node.Sound`).  To write siblings, it is enough to know a form of each node on its own
(`Node.Forms`).  Text may be cut into pieces anywhere (`Loose`); what is read from them is the tree
with these pieces put together (`glue`).
-/

namespace LayoutMarkup

theorem Node.isText_iff {n : Node} : n.isText = true ↔ ∃ raw, n = .text raw := by
  cases n <;> simp [isText]

/-- Trees are made of trees. -/
theorem Node.induction {P : Node → Prop} (text : ∀ raw, P (.text raw))
    (comment : ∀ body, P (.comment body))
    (element : ∀ name as children selfClosing, (∀ n ∈ children, P n) →
      P (.element name as children selfClosing)) : ∀ n, P n
  | .text raw => text raw
  | .comment body => comment body
  | .element name as children selfClosing =>
    element name as children selfClosing fun n _hn => Node.induction text comment element n
termination_by n => sizeOf n
decreasing_by
  have hlt := List.sizeOf_lt_of_mem _hn
  rw [Node.element.sizeOf_spec]
  omega

/-! ## Sound trees -/

/-- No two texts stand side by side. -/
def Apart (ns : List Node) : Prop :=
  ns.IsChain fun m n => m.isText = true → n.isText = false

/-- The key and the value of an attribute can be written. -/
structure Attribute.Sound (a : Attribute) : Prop where
  key : a.key.IsName
  value : '"'.toUInt8 ∉ a.value

/-- The tree can be written. -/
inductive Node.Sound : Node → Prop
  | text {raw : Bytes} (hne : raw ≠ []) (hraw : '<'.toUInt8 ∉ raw) : Sound (.text raw)
  | comment {body : Bytes} (hbody : ¬ Bytes.utf8 "-->" <:+: body) : Sound (.comment body)
  | element {name : Bytes} {as : List Attribute} {children : List Node} {selfClosing : Bool}
      (hname : name.IsName) (has : ∀ a ∈ as, a.Sound) (hchildren : ∀ n ∈ children, n.Sound)
      (hapart : Apart children) (hself : selfClosing = true → children = []) :
      Sound (.element name as children selfClosing)

/-- Attributes that are written down are sound. -/
theorem Attribute.AllWritten.sound {as : List Attribute} {s : Bytes} (h : AllWritten as s) :
    ∀ a ∈ as, a.Sound := by
  induction h with
  | nil => simp
  | cons _ ha _ ih =>
    obtain ⟨hkey, -, -, hvalue⟩ := ha
    exact List.forall_mem_cons.mpr ⟨⟨hkey, hvalue⟩, ih⟩

/-- The name and the attributes of a start tag that is written down are sound. -/
theorem StartTag.Written.sound {name s : Bytes} {as : List Attribute}
    (h : StartTag.Written ⟨name, as⟩ s) : name.IsName ∧ ∀ a ∈ as, a.Sound := by
  obtain ⟨hname, has, -, -⟩ := h
  exact ⟨hname, has.sound⟩

theorem Apart.cons {n : Node} {ns : List Node} (h : Apart ns)
    (hn : ∀ m ∈ ns.head?, n.isText = true → m.isText = false) : Apart (n :: ns) :=
  List.isChain_cons.mpr ⟨hn, h⟩

/-- Texts stay apart if they stay where they are. -/
theorem Apart.map {ns : List Node} (h : Apart ns) {f : Node → Node}
    (hf : ∀ n, (f n).isText = n.isText) : Apart (ns.map f) := by
  rw [Apart, List.isChain_map]
  simp only [hf]
  exact h

/-- What is written is sound. -/
theorem Document.Written.sound {void : NameSet} {closer : Option Bytes} {ns : List Node} {s : Bytes}
    (h : Written void closer ns s) : (∀ n ∈ ns, n.Sound) ∧ Apart ns := by
  induction h with
  | nil => exact ⟨by simp, .nil⟩
  | text hne hraw hnext _ ih =>
    exact ⟨List.forall_mem_cons.mpr ⟨.text hne hraw, ih.1⟩, ih.2.cons fun m hm _ => hnext m hm⟩
  | comment hbody _ ih =>
    exact ⟨List.forall_mem_cons.mpr ⟨.comment hbody, ih.1⟩, ih.2.cons fun _ _ h => by cases h⟩
  | selfClosing htag _ ih =>
    obtain ⟨hname, has⟩ := htag.sound
    exact ⟨List.forall_mem_cons.mpr ⟨.element hname has (by simp) .nil fun _ => rfl, ih.1⟩,
      ih.2.cons fun _ _ h => by cases h⟩
  | closed htag _ _ _ ihinner ih =>
    obtain ⟨hname, has⟩ := htag.sound
    exact ⟨List.forall_mem_cons.mpr
        ⟨.element hname has ihinner.1 ihinner.2 (by simp), ih.1⟩,
      ih.2.cons fun _ _ h => by cases h⟩
  | unclosed htag _ _ _ ihinner =>
    obtain ⟨hname, has⟩ := htag.sound
    exact ⟨List.forall_mem_singleton.mpr (.element hname has ihinner.1 ihinner.2 (by simp)),
      .singleton _⟩

/-! ## Trees in parts -/

/-- The text is a form of the node, whatever stands around it. -/
def Node.Forms (void : NameSet) (n : Node) (s : Bytes) : Prop :=
  n.isText = false ∧ ∀ (closer : Option Bytes) (ns : List Node) (t : Bytes),
    Document.Written void closer ns t → Document.Written void closer (n :: ns) (s ++ t)

/-- The text consists of forms of the nodes; text may come in pieces. -/
inductive Loose (void : NameSet) : List Node → Bytes → Prop
  | nil : Loose void [] []
  | text {raw t : Bytes} {ns : List Node} (hraw : '<'.toUInt8 ∉ raw) (h : Loose void ns t) :
      Loose void (.text raw :: ns) (raw ++ t)
  | node {n : Node} {ns : List Node} {s t : Bytes} (hn : n.Forms void s) (h : Loose void ns t) :
      Loose void (n :: ns) (s ++ t)

/-- Text before some nodes becomes part of the text that they begin with. -/
def prepend (raw : Bytes) : List Node → List Node
  | .text raw' :: ns => .text (raw ++ raw') :: ns
  | ns => if raw.isEmpty then ns else .text raw :: ns

/-- The nodes with the pieces of text put together. -/
def glue : List Node → List Node
  | [] => []
  | .text raw :: ns => prepend raw (glue ns)
  | n :: ns => n :: glue ns

theorem glue_cons {n : Node} (h : n.isText = false) (ns : List Node) :
    glue (n :: ns) = n :: glue ns := by
  cases n with
  | text raw => cases h
  | _ => rfl

theorem prepend_cons {n : Node} (h : n.isText = false) (raw : Bytes) (ns : List Node) :
    prepend raw (n :: ns) = if raw.isEmpty then n :: ns else .text raw :: n :: ns := by
  cases n with
  | text raw => cases h
  | _ => rfl

/-- Where no two texts stand side by side, only empty ones vanish. -/
theorem glue_eq_filter {ns : List Node} (h : Apart ns) : glue ns = ns.filter (· ≠ .text []) := by
  induction ns with
  | nil => rfl
  | cons n ns ih =>
    have hrest := ih h.of_cons
    cases ht : n.isText with
    | false =>
      have hn : n ≠ .text [] := by
        rintro rfl
        cases ht
      rw [glue_cons ht, hrest, List.filter_cons_of_pos (by simpa using hn)]
    | true =>
      obtain ⟨raw, rfl⟩ := Node.isText_iff.mp ht
      rw [glue, List.filter_cons]
      cases ns with
      | nil => cases raw <;> rfl
      | cons m ns =>
        have hm : m.isText = false := (List.isChain_cons_cons.mp h).1 ht
        rw [← hrest, glue_cons hm, prepend_cons hm]
        cases raw <;> simp

/-- What does not depend on how text is cut stays the same when the pieces are put together. -/
theorem glue_invariant {α : Type} {f : List Node → α}
    (hjoin : ∀ raw raw' ns, f (.text (raw ++ raw') :: ns) = f (.text raw :: .text raw' :: ns))
    (hnil : ∀ ns, f (.text [] :: ns) = f ns)
    (hcons : ∀ n ns ms, f ns = f ms → f (n :: ns) = f (n :: ms)) (ns : List Node) :
    f (glue ns) = f ns := by
  have hprepend (raw : Bytes) (ns : List Node) : f (prepend raw ns) = f (.text raw :: ns) := by
    unfold prepend
    split
    · exact hjoin raw _ _
    · split
      · next hempty => rw [List.isEmpty_iff.mp hempty, hnil]
      · rfl
  induction ns with
  | nil => rfl
  | cons n ns ih =>
    cases n with
    | text raw => rw [glue, hprepend, hcons _ _ _ ih]
    | _ => rw [glue_cons rfl, hcons _ _ _ ih]

/-- Putting pieces of text together makes nothing but texts. -/
theorem isText_or_mem_of_mem_glue {n : Node} {ns : List Node} (h : n ∈ glue ns) :
    n.isText = true ∨ n ∈ ns := by
  have hprepend {raw : Bytes} {ms : List Node} (h : n ∈ prepend raw ms) :
      n.isText = true ∨ n ∈ ms := by
    unfold prepend at h
    split at h
    · rcases List.mem_cons.mp h with rfl | h
      · exact .inl rfl
      · exact .inr (List.mem_cons_of_mem _ h)
    · split at h
      · exact .inr h
      · rcases List.mem_cons.mp h with rfl | h
        · exact .inl rfl
        · exact .inr h
  induction ns with
  | nil => cases h
  | cons m ns ih =>
    cases ht : m.isText with
    | true =>
      obtain ⟨raw, rfl⟩ := Node.isText_iff.mp ht
      exact (hprepend h).elim .inl fun h => (ih h).imp_right (List.mem_cons_of_mem _)
    | false =>
      rw [glue_cons ht] at h
      rcases List.mem_cons.mp h with rfl | h
      · exact .inr List.mem_cons_self
      · exact (ih h).imp_right (List.mem_cons_of_mem _)

/-- A node other than text keeps the pieces before it and behind it apart. -/
theorem glue_append_cons {n : Node} (h : n.isText = false) (ns ms : List Node) :
    glue (ns ++ n :: ms) = glue ns ++ n :: glue ms := by
  have hprepend (raw : Bytes) (ls : List Node) :
      prepend raw (ls ++ n :: glue ms) = prepend raw ls ++ n :: glue ms := by
    cases ls with
    | nil =>
      rw [List.nil_append, prepend_cons h]
      cases raw <;> rfl
    | cons l ls =>
      cases ht : l.isText with
      | true =>
        obtain ⟨raw', rfl⟩ := Node.isText_iff.mp ht
        rfl
      | false =>
        rw [List.cons_append, prepend_cons ht, prepend_cons ht]
        split <;> rfl
  induction ns with
  | nil => exact glue_cons h ms
  | cons m ns ih =>
    cases ht : m.isText with
    | true =>
      obtain ⟨raw, rfl⟩ := Node.isText_iff.mp ht
      rw [List.cons_append, glue, ih, hprepend, glue]
    | false => rw [List.cons_append, glue_cons ht, glue_cons ht, ih, List.cons_append]

variable {void : NameSet} {closer : Option Bytes}

/-- Text may stand before siblings; it is put together with a text that they begin with. -/
theorem Document.Written.prepend {ns : List Node} {raw t : Bytes} (hraw : '<'.toUInt8 ∉ raw)
    (h : Written void closer ns t) : Written void closer (prepend raw ns) (raw ++ t) := by
  have hother (hnext : ∀ n ∈ ns.head?, n.isText = false) :
      Written void closer (if raw.isEmpty then ns else .text raw :: ns) (raw ++ t) := by
    cases raw with
    | nil => exact h
    | cons b raw => exact .text (by simp) hraw hnext h
  cases h with
  | nil => exact hother (by simp)
  | @text _ raw' t ns hne hraw' hnext hnodes =>
    rw [← List.append_assoc]
    exact .text (by simp [hne]) (fun hmem => (List.mem_append.mp hmem).elim hraw hraw') hnext hnodes
  | comment => exact hother (by simp [Node.isText])
  | selfClosing => exact hother (by simp [Node.isText])
  | closed => exact hother (by simp [Node.isText])
  | unclosed => exact hother (by simp [Node.isText])

/-- **What consists of forms of nodes can be read as these nodes.** -/
theorem Loose.written {ns : List Node} {s : Bytes} (h : Loose void ns s) :
    Document.Written void closer (glue ns) s := by
  induction h with
  | nil => exact .nil
  | text hraw _ ih => exact ih.prepend hraw
  | @node n ns s t hn _ ih =>
    have := hn.2 closer (glue ns) t ih
    cases n with
    | text raw => cases hn.1
    | _ => exact this

/-- Siblings in parts can follow each other. -/
theorem Loose.append {ns ms : List Node} {s t : Bytes} (hs : Loose void ns s)
    (ht : Loose void ms t) : Loose void (ns ++ ms) (s ++ t) := by
  induction hs with
  | nil => exact ht
  | text hraw _ ih =>
    rw [List.append_assoc]
    exact .text hraw ih
  | node hn _ ih =>
    rw [List.append_assoc]
    exact .node hn ih

theorem Loose.singleton_text {raw : Bytes} (hraw : '<'.toUInt8 ∉ raw) :
    Loose void [.text raw] raw := by
  have h : Loose void [.text raw] (raw ++ []) := .text hraw .nil
  rwa [List.append_nil] at h

/-- An element or a comment on its own has the form of one. -/
theorem Loose.forms {m : Node} {s : Bytes} (h : Loose void [m] s)
    (ht : m.isText = false) : m.Forms void s := by
  cases h with
  | text => cases ht
  | node hm h =>
    cases h
    rwa [List.append_nil]

/-! ## How deep trees are -/

namespace Node

/-- Siblings are nested as deep as the deepest of them. -/
theorem nestingAll_le_iff {ns : List Node} {k : Nat} :
    nestingAll ns ≤ k ↔ ∀ n ∈ ns, n.nesting ≤ k := by
  induction ns with
  | nil => simp [nestingAll]
  | cons n ns ih => rw [nestingAll, Nat.max_le, List.forall_mem_cons, ih]

theorem nesting_le_nestingAll {n : Node} {ns : List Node} (h : n ∈ ns) :
    n.nesting ≤ nestingAll ns := nestingAll_le_iff.mp (Nat.le_refl _) n h

theorem nestingAll_glue (ns : List Node) : nestingAll (glue ns) = nestingAll ns := by
  refine glue_invariant (fun _ _ _ => ?_) (fun _ => ?_) (fun n ns ms h => ?_) ns
  · simp [nestingAll, nesting]
  · simp [nestingAll, nesting]
  · rw [nestingAll, nestingAll, h]

end Node

/-! ## Start tags and attributes in a tree -/

mutual

/-- The start tags in a node, in the order of the document. -/
def Node.startTags : Node → List StartTag
  | .element name attributes children _ => ⟨name, attributes⟩ :: Node.startTagsAll children
  | .text _ | .comment _ => []

/-- The start tags in nodes, in the order of the document. -/
def Node.startTagsAll : List Node → List StartTag
  | [] => []
  | n :: nodes => n.startTags ++ Node.startTagsAll nodes

end

mutual

/-- The attributes in a node, in the order of the document; `g` arranges those of each element. -/
def Node.attributesBy (g : List Attribute → List Attribute) : Node → List Attribute
  | .element _ attributes children _ => g attributes ++ Node.attributesByAll g children
  | .text _ | .comment _ => []

/-- The attributes in nodes, in the order of the document. -/
def Node.attributesByAll (g : List Attribute → List Attribute) : List Node → List Attribute
  | [] => []
  | n :: nodes => n.attributesBy g ++ Node.attributesByAll g nodes

end

namespace Node

theorem startTagsAll_singleton (n : Node) : startTagsAll [n] = n.startTags := List.append_nil _

theorem mem_startTagsAll {t : StartTag} {ns : List Node} :
    t ∈ startTagsAll ns ↔ ∃ n ∈ ns, t ∈ n.startTags := by
  induction ns with
  | nil => simp [startTagsAll]
  | cons n ns ih => rw [startTagsAll, List.mem_append, ih, List.exists_mem_cons_iff]

theorem startTagsAll_append (ns ms : List Node) :
    startTagsAll (ns ++ ms) = startTagsAll ns ++ startTagsAll ms := by
  induction ns with
  | nil => rfl
  | cons n ns ih => rw [List.cons_append, startTagsAll, startTagsAll, ih, List.append_assoc]

/-- How text is cut into pieces does not matter for start tags. -/
theorem startTagsAll_glue (ns : List Node) : startTagsAll (glue ns) = startTagsAll ns := by
  refine glue_invariant (fun _ _ _ => rfl) (fun _ => rfl) (fun n ns ms h => ?_) ns
  rw [startTagsAll, startTagsAll, h]

/-- Blank texts have no start tags. -/
theorem startTagsAll_significant (ns : List Node) :
    startTagsAll (significant ns) = startTagsAll ns := by
  induction ns with
  | nil => rfl
  | cons n ns ih =>
    rw [significant] at ih ⊢
    cases n with
    | text raw =>
      rw [List.filter_cons]
      split <;> exact ih
    | _ => rw [List.filter_cons_of_pos rfl, startTagsAll, startTagsAll, ih]

variable {g : List Attribute → List Attribute}

/-- The attributes are those of the start tags. -/
theorem attributesByAll_eq_startTagsAll (g : List Attribute → List Attribute) :
    ∀ ns : List Node, attributesByAll g ns = (startTagsAll ns).flatMap fun t => g t.attributes
  | [] => rfl
  | .text _ :: ns => attributesByAll_eq_startTagsAll g ns
  | .comment _ :: ns => attributesByAll_eq_startTagsAll g ns
  | .element _ as children _ :: ns => by
    rw [attributesByAll, attributesBy, startTagsAll, startTags, List.flatMap_append,
      List.flatMap_cons, attributesByAll_eq_startTagsAll g children,
      attributesByAll_eq_startTagsAll g ns]

theorem attributesByAll_eq_flatMap (g : List Attribute → List Attribute) (ns : List Node) :
    attributesByAll g ns = ns.flatMap (attributesBy g) := by
  induction ns with
  | nil => rfl
  | cons n ns ih => rw [attributesByAll, ih, List.flatMap_cons]

theorem attributesByAll_append (ns ms : List Node) :
    attributesByAll g (ns ++ ms) = attributesByAll g ns ++ attributesByAll g ms := by
  simp only [attributesByAll_eq_startTagsAll, startTagsAll_append, List.flatMap_append]

theorem attributesByAll_glue (ns : List Node) :
    attributesByAll g (glue ns) = attributesByAll g ns := by
  rw [attributesByAll_eq_startTagsAll, startTagsAll_glue, ← attributesByAll_eq_startTagsAll]

/-- Blank texts have no attributes. -/
theorem attributesByAll_significant (ns : List Node) :
    attributesByAll g (significant ns) = attributesByAll g ns := by
  rw [attributesByAll_eq_startTagsAll, startTagsAll_significant, ← attributesByAll_eq_startTagsAll]

end Node

end LayoutMarkup

import LayoutMarkup.Markup.Document
import LayoutMarkup.Proofs.Scanning

/-!
# Proofs/Grammar — how documents can be written

    text  <name key = "value">…</name >  <name/>  <!--body-->

`Document.Written void closer nodes s` says that the text `s` is one way to write the siblings
`nodes`.  All that a tree leaves open is where blanks stand inside of tags, and whether a void
element is closed by a tag of its own.  Such a tag may be missing behind the last of the siblings
only, and where the next closing tag, that of the element `closer`, would not be taken for it.
-/

namespace LayoutMarkup

/-! ## Start tags -/

/-- An attribute: its key, an equals sign and its value between quotes. -/
inductive Attribute.Written : Attribute → Bytes → Prop
  | intro {key w w' value : Bytes} (hkey : key.IsName) (hw : ∀ b ∈ w, Bytes.isBlank b = true)
      (hw' : ∀ b ∈ w', Bytes.isBlank b = true) (hvalue : '"'.toUInt8 ∉ value) :
      Written ⟨key, value⟩
        (key ++ (w ++ Bytes.utf8 "=" ++ w' ++ Bytes.utf8 "\"" ++ value ++ Bytes.utf8 "\""))

/-- Attributes one behind the other, each with any number of blanks before it. -/
inductive Attribute.AllWritten : List Attribute → Bytes → Prop
  | nil : AllWritten [] []
  | cons {w s t : Bytes} {a : Attribute} {as : List Attribute}
      (hw : ∀ b ∈ w, Bytes.isBlank b = true) (ha : a.Written s) (has : AllWritten as t) :
      AllWritten (a :: as) (w ++ s ++ t)

/-- A start tag up to the mark that ends it.  A blank stands behind the name if an attribute
follows, and any number of blanks before the end. -/
inductive StartTag.Written : StartTag → Bytes → Prop
  | intro {name s w : Bytes} {as : List Attribute} (hname : name.IsName)
      (has : Attribute.AllWritten as s) (hgap : ∀ b ∈ s.head?, Bytes.isBlank b = true)
      (hw : ∀ b ∈ w, Bytes.isBlank b = true) :
      Written ⟨name, as⟩ (Bytes.utf8 "<" ++ name ++ (s ++ w))

/-! ## Siblings -/

/-- Is the node text? -/
def Node.isText : Node → Bool
  | .text _ => true
  | _ => false

/-- The text is a way to write the siblings, given the elements that may stay unclosed and the name
in the closing tag that ends the nearest element around them with such a tag, if there is one. -/
inductive Document.Written (void : NameSet) : Option Bytes → List Node → Bytes → Prop
  | nil {closer : Option Bytes} : Written void closer [] []
  | text {closer : Option Bytes} {raw t : Bytes} {nodes : List Node} (hne : raw ≠ [])
      (hraw : '<'.toUInt8 ∉ raw) (hnext : ∀ n ∈ nodes.head?, n.isText = false)
      (hnodes : Written void closer nodes t) :
      Written void closer (.text raw :: nodes) (raw ++ t)
  | comment {closer : Option Bytes} {body t : Bytes} {nodes : List Node}
      (hbody : ¬ Bytes.utf8 "-->" <:+: body) (hnodes : Written void closer nodes t) :
      Written void closer (.comment body :: nodes)
        (Bytes.utf8 "<!--" ++ body ++ Bytes.utf8 "-->" ++ t)
  | selfClosing {closer : Option Bytes} {name s t : Bytes} {as : List Attribute} {nodes : List Node}
      (htag : StartTag.Written ⟨name, as⟩ s) (hnodes : Written void closer nodes t) :
      Written void closer (.element name as [] true :: nodes) (s ++ Bytes.utf8 "/>" ++ t)
  | closed {closer : Option Bytes} {name s inner w t : Bytes} {as : List Attribute}
      {children nodes : List Node} (htag : StartTag.Written ⟨name, as⟩ s)
      (hinner : Written void (some name) children inner) (hw : ∀ b ∈ w, Bytes.isBlank b = true)
      (hnodes : Written void closer nodes t) :
      Written void closer (.element name as children false :: nodes)
        (s ++ Bytes.utf8 ">" ++ inner ++ (Bytes.utf8 "</" ++ name ++ w ++ Bytes.utf8 ">") ++ t)
  | unclosed {closer : Option Bytes} {name s inner : Bytes} {as : List Attribute}
      {children : List Node} (htag : StartTag.Written ⟨name, as⟩ s) (hvoid : name ∈ void)
      (hcloser : closer ≠ some name) (hinner : Written void closer children inner) :
      Written void closer [.element name as children false] (s ++ Bytes.utf8 ">" ++ inner)

mutual

/-- How many elements are open at once inside the node, itself counted unless it is a single tag. -/
def Node.nesting : Node → Nat
  | .element _ _ children selfClosing => if selfClosing then 0 else Node.nestingAll children + 1
  | .text _ | .comment _ => 0

/-- How many elements are open at once among the nodes. -/
def Node.nestingAll : List Node → Nat
  | [] => 0
  | n :: nodes => max n.nesting (Node.nestingAll nodes)

end

@[simp] theorem Node.nestingAll_append (ns ms : List Node) :
    nestingAll (ns ++ ms) = max (nestingAll ns) (nestingAll ms) := by
  induction ns with
  | nil => simp [nestingAll]
  | cons n ns ih => simp [nestingAll, ih, Nat.max_assoc]

@[simp] theorem Node.nestingAll_reverse (ns : List Node) :
    nestingAll ns.reverse = nestingAll ns := by
  induction ns with
  | nil => rfl
  | cons n ns ih => simp [nestingAll, ih, Nat.max_comm]

/-! ## Small facts about the forms -/

theorem Attribute.AllWritten.append {as bs : List Attribute} {s t : Bytes} (has : AllWritten as s)
    (hbs : AllWritten bs t) : AllWritten (as ++ bs) (s ++ t) := by
  induction has with
  | nil => exact hbs
  | cons hw ha _ ih =>
    rw [List.append_assoc, List.cons_append]
    exact .cons hw ha ih

theorem StartTag.Written.isName {t : StartTag} {s : Bytes} (h : t.Written s) : t.name.IsName := by
  cases h with
  | intro hname => exact hname

/-- Siblings begin with the opening mark of a tag, unless the first one is text. -/
theorem Document.Written.head {void : NameSet} {closer : Option Bytes} {nodes : List Node}
    {s : Bytes} (h : Document.Written void closer nodes s)
    (hnext : ∀ n ∈ nodes.head?, n.isText = false) :
    ∀ b ∈ s.head?, b = '<'.toUInt8 := by
  cases h with
  | nil => simp
  | text => exact absurd (hnext _ rfl) (by simp [Node.isText])
  | comment => simp [utf8_openComment]
  | selfClosing htag => cases htag; simp [utf8_open]
  | closed htag => cases htag; simp [utf8_open]
  | unclosed htag => cases htag; simp [utf8_open]

end LayoutMarkup

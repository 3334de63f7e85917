import LayoutMarkup.Canonical.Inline
import LayoutMarkup.Proofs.Lines
import LayoutMarkup.Proofs.Trees

/-!
# Proofs/Gist — what formatting must not change

The gist of a document leaves out what layout is free to choose: blank texts, the white space
between words, and whether an element without content is a single tag.  What attributes say is left
to a parameter, since their values have a canonical form.
-/

namespace LayoutMarkup

/-- A tree as far as its layout does not matter. -/
inductive Gist where
  | element (name : Bytes) (attributes : List (Bytes × List Bytes)) (children : List Gist)
  | text (words : List Bytes)
  | comment (body : Bytes)
  deriving Repr

/-- Is it the gist of a text? -/
def Gist.isText : Gist → Bool
  | text _ => true
  | _ => false

mutual

/-- The gist of a node, given what its attributes say. -/
def Node.gist (f : List Attribute → List (Bytes × List Bytes)) : Node → Gist
  | .element name attributes children _ => .element name (f attributes) (Node.gistAll f children)
  | .text raw => .text raw.words
  | .comment body => .comment body

/-- The gist of nodes: of all that are not blank. -/
def Node.gistAll (f : List Attribute → List (Bytes × List Bytes)) : List Node → List Gist
  | [] => []
  | n :: nodes => if n.isBlank then Node.gistAll f nodes else n.gist f :: Node.gistAll f nodes

end

namespace Node

variable {f g : List Attribute → List (Bytes × List Bytes)}

/-- The gist is that of the significant nodes. -/
theorem gistAll_eq_map (f : List Attribute → List (Bytes × List Bytes)) (ns : List Node) :
    gistAll f ns = (significant ns).map (gist f) := by
  induction ns with
  | nil => rfl
  | cons n ns ih =>
    rw [gistAll, significant, List.filter_cons, ih, significant]
    cases n.isBlank <;> rfl

theorem gistAll_append (ns ms : List Node) :
    gistAll f (ns ++ ms) = gistAll f ns ++ gistAll f ms := by
  rw [gistAll_eq_map, gistAll_eq_map, gistAll_eq_map, significant, List.filter_append,
    List.map_append]
  rfl

/-- The gist of a text among its siblings. -/
def gistText (raw : Bytes) : List Gist := if raw.words = [] then [] else [.text raw.words]

theorem gistAll_text (raw : Bytes) (ns : List Node) :
    gistAll f (.text raw :: ns) = gistText raw ++ gistAll f ns := by
  rw [gistAll, gistText, isBlank, gist]
  by_cases h : raw.words = []
  · rw [if_pos h, if_pos (Bytes.words_eq_nil_iff.mp h)]
    rfl
  · rw [if_neg h, if_neg fun hb => h (Bytes.words_eq_nil_iff.mpr hb)]
    rfl

theorem gistAll_cons_of_not_text {n : Node} (h : n.isText = false) (ns : List Node) :
    gistAll f (n :: ns) = n.gist f :: gistAll f ns := by
  cases n with
  | text raw => cases h
  | _ => rfl

theorem isText_gist (n : Node) : (n.gist f).isText = n.isText := by
  cases n <;> rfl

/-- Nothing is left of a blank text. -/
theorem gistText_blank {raw : Bytes} (h : ∀ b ∈ raw, Bytes.isBlank b = true) :
    gistText raw = [] := by
  rw [gistText, Bytes.words_blanks h]
  rfl

theorem gistAll_text_blank {raw : Bytes} (h : ∀ b ∈ raw, Bytes.isBlank b = true)
    (ns : List Node) : gistAll f (.text raw :: ns) = gistAll f ns := by
  rw [gistAll_text, gistText_blank h, List.nil_append]

end Node

/-- No two texts stand side by side. -/
def Gist.Apart (gs : List Gist) : Prop :=
  gs.IsChain fun g h => g.isText = true → h.isText = false

namespace Node

variable {f g : List Attribute → List (Bytes × List Bytes)}

/-- Blank texts between nodes keep no texts apart. -/
theorem gistAll_apart {ns : List Node} (h : Apart ns) : Gist.Apart (gistAll f ns) := by
  induction ns with
  | nil => exact .nil
  | cons n ns ih =>
    have hrest := ih h.of_cons
    cases ht : n.isText with
    | false =>
      rw [gistAll_cons_of_not_text ht]
      refine List.isChain_cons.mpr ⟨fun _ _ hg => ?_, hrest⟩
      rw [isText_gist, ht] at hg
      cases hg
    | true =>
      obtain ⟨raw, rfl⟩ := isText_iff.mp ht
      rw [gistAll_text, gistText]
      split
      · exact hrest
      · refine List.isChain_cons.mpr ⟨fun g hg _ => ?_, hrest⟩
        cases ns with
        | nil => cases hg
        | cons m ns =>
          have hm : m.isText = false := (List.isChain_cons_cons.mp h).1 ht
          rw [gistAll_cons_of_not_text hm] at hg
          obtain rfl : m.gist f = g := by simpa using hg
          rw [isText_gist, hm]

/-- A piece of text can be put together with the next one, if one of them is blank. -/
theorem gistAll_prepend {raw : Bytes} {ns : List Node}
    (h : Gist.Apart (gistText raw ++ gistAll f ns)) :
    gistAll f (prepend raw ns) = gistText raw ++ gistAll f ns := by
  have hother : gistAll f (if raw.isEmpty then ns else .text raw :: ns)
      = gistText raw ++ gistAll f ns := by
    cases raw with
    | nil => rfl
    | cons b raw => exact gistAll_text _ ns
  rcases ns with _ | ⟨n, ns⟩
  · exact hother
  cases ht : n.isText with
  | false => rwa [prepend_cons ht]
  | true =>
    obtain ⟨raw', rfl⟩ := isText_iff.mp ht
    rw [gistAll_text] at h ⊢
    rw [prepend, gistAll_text, ← List.append_assoc]
    congr 1
    by_cases hraw : raw.words = []
    · have hb := List.all_eq_true.mp (Bytes.words_eq_nil_iff.mp hraw)
      rw [gistText, gistText, gistText, Bytes.words_blanks_append hb, if_pos hraw, List.nil_append]
    by_cases hraw' : raw'.words = []
    · have hb := List.all_eq_true.mp (Bytes.words_eq_nil_iff.mp hraw')
      rw [gistText, gistText, gistText, Bytes.words_append_blanks raw hb, if_pos hraw',
        List.append_nil]
    · rw [gistText, gistText, if_neg hraw, if_neg hraw'] at h
      exact absurd ((List.isChain_cons_cons.mp h).1 rfl) (by simp [Gist.isText])

/-- Putting pieces of text together keeps the gist, if all but one of them are blank. -/
theorem gistAll_glue {ns : List Node} (h : Gist.Apart (gistAll f ns)) :
    gistAll f (glue ns) = gistAll f ns := by
  induction ns with
  | nil => rfl
  | cons n ns ih =>
    cases ht : n.isText with
    | true =>
      obtain ⟨raw, rfl⟩ := isText_iff.mp ht
      rw [gistAll_text] at h ⊢
      have := ih (List.IsChain.right_of_append h)
      rw [glue, gistAll_prepend (by rwa [this]), this]
    | false =>
      rw [gistAll_cons_of_not_text ht] at h
      rw [glue_cons ht, gistAll_cons_of_not_text ht, gistAll_cons_of_not_text ht, ih h.of_cons]

end Node

/-! ## Start tags -/

mutual

/-- The names and attributes in a gist, in the order of the document. -/
def Gist.labels : Gist → List (Bytes × List (Bytes × List Bytes))
  | .element name attributes children => (name, attributes) :: Gist.labelsAll children
  | .text _ | .comment _ => []

/-- The names and attributes in gists, in the order of the document. -/
def Gist.labelsAll : List Gist → List (Bytes × List (Bytes × List Bytes))
  | [] => []
  | g :: gists => g.labels ++ Gist.labelsAll gists

end

/-- The gist keeps the start tags, with what it keeps of their attributes. -/
theorem Node.labelsAll_gistAll (f : List Attribute → List (Bytes × List Bytes)) :
    ∀ ns : List Node, Gist.labelsAll (Node.gistAll f ns)
      = (Node.startTagsAll ns).map fun t => (t.name, f t.attributes)
  | [] => rfl
  | .text raw :: ns => by
    have ih := Node.labelsAll_gistAll f ns
    rw [Node.gistAll_text, Node.gistText]
    split <;> exact ih
  | .comment _ :: ns => Node.labelsAll_gistAll f ns
  | .element _ as children _ :: ns => by
    rw [Node.gistAll_cons_of_not_text rfl, Node.gist, Gist.labelsAll, Gist.labels,
      Node.startTagsAll, Node.startTags, List.map_append, List.map_cons,
      Node.labelsAll_gistAll f children, Node.labelsAll_gistAll f ns]

/-! ## What the gist decides

How a node is printed depends on its gist alone: whether it flows with the text around it, and
whether an element is running text as a whole. -/

mutual

/-- Is it the gist of a comment, or is there one inside it? -/
def Gist.hasComment : Gist → Bool
  | .element _ _ children => Gist.anyHasComment children
  | .text _ => false
  | .comment _ => true

/-- Is there a comment among the gists or inside them? -/
def Gist.anyHasComment : List Gist → Bool
  | [] => false
  | g :: gists => g.hasComment || Gist.anyHasComment gists

end

/-- Is it the gist of a node that flows with the text around it? -/
def Gist.isInline (v : Vocabulary) : Gist → Bool
  | .text _ => true
  | .element name attributes children =>
    v.rawText.has name && !(Gist.element name attributes children).hasComment
  | .comment _ => false

section

variable {f g : List Attribute → List (Bytes × List Bytes)}

theorem Node.hasComment_gist (f : List Attribute → List (Bytes × List Bytes)) (n : Node) :
    (n.gist f).hasComment = n.hasComment := by
  induction n using Node.induction with
  | text raw => rfl
  | comment body => rfl
  | element name as children selfClosing ih =>
    rw [Node.gist, Gist.hasComment, Node.hasComment]
    induction children with
    | nil => rfl
    | cons n ns ihns =>
      obtain ⟨hn, hns⟩ := List.forall_mem_cons.mp ih
      rw [Node.gistAll, Node.anyHasComment]
      cases n with
      | text raw =>
        rw [Node.hasComment, Bool.false_or, ← ihns hns]
        split <;> rfl
      | _ =>
        rw [if_neg (by simp [Node.isBlank]), Gist.anyHasComment, hn, ihns hns]

/-- Whether a node flows can be told from its gist. -/
theorem Node.isInline_gist (v : Vocabulary) (n : Node) :
    (n.gist f).isInline v = Canonical.isInline v n := by
  cases n with
  | text raw => rfl
  | comment body => rfl
  | element name as children selfClosing =>
    have h := Node.hasComment_gist f (.element name as children selfClosing)
    rw [Canonical.isInline, ← h]
    rfl

theorem Node.isInline_congr {v : Vocabulary} {m n : Node} (h : m.gist f = n.gist g) :
    Canonical.isInline v m = Canonical.isInline v n := by
  rw [← Node.isInline_gist, h, Node.isInline_gist]

theorem Node.all_isInline_gist (v : Vocabulary) (ns : List Node) :
    (Node.gistAll f ns).all (Gist.isInline v) = ns.all (Canonical.isInline v) := by
  induction ns with
  | nil => rfl
  | cons n ns ih =>
    rw [Node.gistAll, List.all_cons]
    cases n with
    | text raw =>
      rw [Canonical.isInline, Bool.true_and, ← ih]
      split <;> rfl
    | _ =>
      rw [if_neg (by simp [Node.isBlank]), List.all_cons, Node.isInline_gist, ih]

/-- Wording is the text that is left in the gist. -/
theorem Node.any_isWording_gist (ns : List Node) :
    (Node.gistAll f ns).any Gist.isText = ns.any Node.isWording := by
  induction ns with
  | nil => rfl
  | cons n ns ih =>
    rw [Node.gistAll, List.any_cons, ← ih]
    cases n with
    | text raw =>
      rw [Node.isBlank, Node.isWording]
      cases raw.all Bytes.isBlank <;> rfl
    | _ => rfl

/-- Whether an element is running text as a whole can be told from the gist of its children. -/
theorem Node.isVerbatim_gist (v : Vocabulary) (name : Bytes) (children : List Node) :
    Canonical.isVerbatim v name children = (v.rawText.has name
      && (Node.gistAll f children).all (Gist.isInline v)
      && (Node.gistAll f children).any Gist.isText) := by
  rw [Canonical.isVerbatim, Node.all_isInline_gist, Node.any_isWording_gist]

end

end LayoutMarkup

import LayoutMarkup.Proofs.Parsing

/-!
# Proofs/Outlines — an outline is a document

An outline shows a chain of elements as a document of its own.  `Outline.parse_render`: read with
room for as many elements, it gives that chain, with the ellipsis in the innermost element and
blanks between the others.

Values can hold anything but a quote, so they are written as they are read, once what stands for
characters of markup has been put in (`quote_not_mem_escape`); and a key that occurs twice is one of
the keys all the same (`mem_of_mem_foldl_put`).
-/

namespace LayoutMarkup

/-- The element is a chain of elements with the given names, outermost first: each holds the next
one, apart from blanks, and the innermost one an ellipsis. -/
inductive Node.IsChain : List Bytes → Node → Prop
  | innermost {name : Bytes} {as : List Attribute} :
      IsChain [name] (.element name as [.text (Bytes.utf8 "...")] false)
  | cons {name : Bytes} {names : List Bytes} {as : List Attribute} {children : List Node} {n : Node}
      (hchildren : Node.significant children = [n]) (h : IsChain names n) :
      IsChain (name :: names) (.element name as children false)

theorem Node.IsChain.isBlank_eq {names : List Bytes} {n : Node} (h : n.IsChain names) :
    n.isBlank = false := by
  obtain _ | _ := h
  · rfl
  · rfl

namespace Outline

/-! ## Attributes -/

theorem mem_put {as : List Attribute} {a b : Attribute} (h : b ∈ put as a) : b ∈ as ∨ b = a := by
  rw [put] at h
  split at h
  · obtain ⟨c, hc, rfl⟩ := List.mem_map.mp h
    split
    · exact .inr rfl
    · exact .inl hc
  · simpa using h

/-- The attributes of an outline are among those of the element. -/
theorem mem_of_mem_foldl_put {as bs : List Attribute} {a : Attribute} (h : a ∈ as.foldl put bs) :
    a ∈ bs ∨ a ∈ as := by
  induction as generalizing bs with
  | nil => exact .inl h
  | cons b as ih =>
    rw [List.mem_cons]
    rcases ih h with hput | has
    · exact (mem_put hput).imp_right .inl
    · exact .inr (.inr has)

/-- What stands for a glyph in a value has no quote in it. -/
theorem quote_not_mem_escape (g : Glyph) : '"'.toUInt8 ∉ escape g := by
  have hencode : ∀ c : Char, c ≠ '"' → '"'.toUInt8 ∉ String.utf8EncodeChar c := fun c hc hmem =>
    hc (Bytes.eq_ofNat_of_mem_encode hmem (by decide))
  unfold escape
  split
  · decide
  · decide
  · decide
  · decide
  · decide
  · next c _ _ _ _ hquote =>
    refine hencode _ ?_
    split
    · exact fun h => hquote h
    · decide
  · exact hencode _ (by decide)

/-- Attributes are written as they are read, each value with what stands for its glyphs. -/
theorem allWritten_written {as : List Attribute} (h : ∀ a ∈ as, a.key.IsName) :
    Attribute.AllWritten (as.map fun a => ⟨a.key, a.value.glyphs.flatMap escape⟩)
      (as.flatMap written) := by
  induction as with
  | nil => exact .nil
  | cons a as ih =>
    obtain ⟨hkey, has⟩ := List.forall_mem_cons.mp h
    have hvalue : '"'.toUInt8 ∉ a.value.glyphs.flatMap escape := fun hmem => by
      obtain ⟨g, -, hg⟩ := List.mem_flatMap.mp hmem
      exact quote_not_mem_escape g hg
    have hwritten : written a = Bytes.utf8 " " ++ (a.key ++ ([] ++ Bytes.utf8 "=" ++ [] ++
        Bytes.utf8 "\"" ++ a.value.glyphs.flatMap escape ++ Bytes.utf8 "\"")) := by
      have hmark : Bytes.utf8 "=\"" = Bytes.utf8 "=" ++ Bytes.utf8 "\"" := rfl
      rw [written, hmark]
      simp only [List.append_assoc, List.nil_append]
    rw [List.map_cons, List.flatMap_cons, hwritten]
    exact .cons (by decide) (.intro hkey (by simp) (by simp) hvalue) (ih has)

theorem isName_of_allWritten {as : List Attribute} {s : Bytes} (h : Attribute.AllWritten as s) :
    ∀ a ∈ as, a.key.IsName := by
  induction h with
  | nil => simp
  | cons _ ha _ ih =>
    obtain ⟨hkey, -⟩ := ha
    exact List.forall_mem_cons.mpr ⟨hkey, ih⟩

/-- The start tag of an element in an outline is one with the same name. -/
theorem written_opening {t : StartTag} {u : Bytes} (h : t.Written u) :
    ∃ s as, opening t = s ++ Bytes.utf8 ">" ∧ StartTag.Written ⟨t.name, as⟩ s := by
  obtain @⟨name, v, w, as, hname, has, -, -⟩ := h
  have hkeys : ∀ a ∈ as.foldl put [], a.key.IsName := fun a ha =>
    isName_of_allWritten has a ((mem_of_mem_foldl_put ha).resolve_left (by simp))
  have hgap : ∀ b ∈ ((as.foldl put []).flatMap written).head?, Bytes.isBlank b = true := by
    rcases as.foldl put [] with _ | ⟨a, bs⟩
    · simp
    · intro b hb
      obtain rfl : ' '.toUInt8 = b := Option.some.inj hb
      decide
  have htag := StartTag.Written.intro hname (allWritten_written hkeys) hgap (w := []) (by simp)
  rw [List.append_nil] at htag
  exact ⟨_, _, rfl, htag⟩

/-! ## Lines -/

/-- One level of depth in an outline. -/
abbrev unit : Bytes := Bytes.utf8 "    "

/-- What stands between an element and the next one inside it is blank. -/
theorem isBlank_gap (depth : Nat) :
    ∀ b ∈ Bytes.utf8 "\n" ++ Line.pad unit depth, Bytes.isBlank b = true := by
  have hunit : ∀ b ∈ unit, Bytes.isBlank b = true := by decide
  intro b hb
  rcases List.mem_append.mp hb with hlf | hpad
  · obtain rfl := List.mem_singleton.mp hlf
    decide
  · obtain ⟨u, hu, hmem⟩ := List.mem_flatten.mp hpad
    rw [List.eq_of_mem_replicate hu] at hmem
    exact hunit b hmem

theorem isBlank_gapNode (depth : Nat) :
    Node.isBlank (.text (Bytes.utf8 "\n" ++ Line.pad unit depth)) = true :=
  List.all_eq_true.mpr (isBlank_gap depth)

/-- A gap can be written anywhere but next to text. -/
theorem written_gap {void : NameSet} {closer : Option Bytes} {nodes : List Node} {s : Bytes}
    (depth : Nat) (hnext : ∀ n ∈ nodes.head?, n.isText = false)
    (h : Document.Written void closer nodes s) :
    Document.Written void closer (.text (Bytes.utf8 "\n" ++ Line.pad unit depth) :: nodes)
      (Bytes.utf8 "\n" ++ Line.pad unit depth ++ s) := by
  refine .text (by simp [Bytes.utf8]) (fun hmem => ?_) hnext h
  have hblank := isBlank_gap depth _ hmem
  contradiction

/-- **An outline is a way to write a chain of elements.** -/
theorem exists_of_lines : ∀ {chain : List StartTag} (depth : Nat), chain ≠ [] →
    (∀ t ∈ chain, ∃ u, t.Written u) →
    ∃ n s, Line.renderAll unit (lines depth chain) = Line.pad unit depth ++ s ++ Bytes.utf8 "\n" ∧
      n.isText = false ∧ n.IsChain (chain.map (·.name)) ∧ n.nesting = chain.length ∧
      ∀ {void : NameSet} {closer : Option Bytes} {more : List Node} {t : Bytes},
        Document.Written void closer more t → Document.Written void closer (n :: more) (s ++ t)
  | [], _, hne, _ => absurd rfl hne
  | [t], depth, _, htags => by
    obtain ⟨u, hu⟩ := htags t List.mem_cons_self
    obtain ⟨s, as, hopening, htag⟩ := written_opening hu
    refine ⟨.element t.name as [.text (Bytes.utf8 "...")] false,
      opening t ++ Bytes.utf8 "..." ++ closing t, ?_, rfl, .innermost, rfl,
      fun {void _ _ _} hmore => ?_⟩
    · simp [lines, Line.render]
    · have hinner : Document.Written void (some t.name) [.text (Bytes.utf8 "...")]
          (Bytes.utf8 "..." ++ []) := .text (by decide) (by decide) (by simp) .nil
      have h := Document.Written.closed htag hinner (w := []) (by simp) hmore
      rw [hopening, closing]
      simpa only [List.append_assoc, List.append_nil, List.nil_append] using h
  | t :: u :: chain, depth, _, htags => by
    obtain ⟨htag, hrest⟩ := List.forall_mem_cons.mp htags
    obtain ⟨v, hv⟩ := htag
    obtain ⟨s, as, hopening, htag⟩ := written_opening hv
    obtain ⟨n, r, hlines, htext, hchain, hnesting, hwritten⟩ :=
      exists_of_lines (depth + 1) (List.cons_ne_nil u chain) hrest
    refine ⟨.element t.name as [.text (Bytes.utf8 "\n" ++ Line.pad unit (depth + 1)), n,
      .text (Bytes.utf8 "\n" ++ Line.pad unit depth)] false, opening t ++ (Bytes.utf8 "\n" ++
        Line.pad unit (depth + 1) ++ (r ++ (Bytes.utf8 "\n" ++ Line.pad unit depth))) ++ closing t,
      ?_, rfl, .cons ?_ hchain, ?_, fun {void _ _ _} hmore => ?_⟩
    · rw [lines, Line.renderAll_cons, Line.renderAll_append, hlines, Line.renderAll_cons]
      simp only [Line.render, Line.renderAll_nil, List.append_assoc, List.append_nil]
    · simp [Node.significant, isBlank_gapNode, hchain.isBlank_eq]
    · simp [Node.nesting, Node.nestingAll, hnesting]
    · have hnil : Document.Written void (some t.name) [] [] := .nil
      have hend := written_gap depth (by simp) hnil
      have hinner := written_gap (depth + 1) (by simpa using htext) (hwritten hend)
      have h := Document.Written.closed htag hinner (w := []) (by simp) hmore
      rw [hopening, closing]
      simpa only [List.append_assoc, List.append_nil, List.nil_append] using h

/-- Only the outline of no elements is empty. -/
theorem render_eq_nil_iff {chain : List StartTag} : render chain = [] ↔ chain = [] := by
  constructor
  · intro h
    rcases chain with _ | ⟨t, _ | ⟨u, chain⟩⟩
    · rfl
    · simp [render, lines, Line.render, opening, Bytes.utf8] at h
    · simp [render, lines, Line.render, opening, Bytes.utf8] at h
  · rintro rfl
    rfl

/-- **An outline is read as the chain of elements that it shows.** -/
theorem parse_render {o : ParseOptions} {chain : List StartTag} (hne : chain ≠ [])
    (htags : ∀ t ∈ chain, ∃ u, t.Written u) (hroom : chain.length ≤ o.maxDepth) :
    ∃ d n, Document.parse o (render chain) = .ok d ∧ Node.significant d = [n] ∧
      n.IsChain (chain.map (·.name)) := by
  obtain ⟨n, s, hlines, htext, hchain, hnesting, hwritten⟩ := exists_of_lines 0 hne htags
  refine ⟨[n, .text (Bytes.utf8 "\n" ++ Line.pad unit 0)], n, Document.parse_of_written ?_ ?_, ?_,
    hchain⟩
  · have hnil : Document.Written o.void none [] [] := .nil
    have hend := written_gap 0 (by simp) hnil
    rw [render, hlines]
    simpa [Line.pad] using hwritten hend
  · simp [Node.nestingAll, Node.nesting, hnesting, hroom]
  · simp [Node.significant, isBlank_gapNode, hchain.isBlank_eq]

end Outline

end LayoutMarkup

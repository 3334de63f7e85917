import LayoutMarkup.Proofs.Elements
import LayoutMarkup.Proofs.Parsing
import LayoutMarkup.Proofs.Respacing

/-!
# Proofs/Whitespace — white space in running text

Running text is trimmed, cut into lines and moved without regard to the nodes in it.  What is read
from the outcome is given in full: the tidy nodes, trimmed at their two ends, with each text moved
on its own (`parse_shift_trim`).  Moving a text changes how wide its gaps are and nothing else
(`sameGaps_of_respaced`), so white space next to a tag is neither made nor lost
(`parse_moveLines`).
-/

namespace LayoutMarkup

/-! ## Gaps -/

namespace Bytes

/-- The text with a single space for each of its gaps. -/
def squeeze : Bytes → Bytes
  | [] => []
  | b :: s => if isBlank b then ' '.toUInt8 :: (squeeze s).dropWhile isBlank else b :: squeeze s

/-- A gap at the beginning becomes a single space. -/
theorem squeeze_gap {w : Bytes} (hne : w ≠ []) (hw : ∀ b ∈ w, isBlank b = true) (s : Bytes) :
    squeeze (w ++ s) = ' '.toUInt8 :: (squeeze s).dropWhile isBlank := by
  induction w with
  | nil => exact absurd rfl hne
  | cons b w ih =>
    obtain ⟨hb, hw⟩ := List.forall_mem_cons.mp hw
    rw [List.cons_append, squeeze, if_pos hb]
    by_cases hnil : w = []
    · rw [hnil, List.nil_append]
    · rw [ih hnil hw, List.dropWhile_cons_of_pos (by decide), List.dropWhile_idempotent]

/-- Texts that differ in their gaps only are squeezed alike. -/
theorem squeeze_respaced {s t : Bytes} (h : Respaced (fun b => isBlank b = true) s t) :
    squeeze s = squeeze t := by
  induction h with
  | nil => rfl
  | cons b _ ih => rw [squeeze, squeeze, ih]
  | gap hne hw hne' hw' _ ih => rw [squeeze_gap hne hw, squeeze_gap hne' hw', ih]

end Bytes

namespace Canonical

/-- The second text is the first one with gaps of other widths: they are the same once each gap is a
single space, and there are blanks at their beginnings, or at their ends, either in both or in
none. -/
structure SameGaps (s t : Bytes) : Prop where
  squeeze : t.squeeze = s.squeeze
  begins : Begins t ↔ Begins s
  ends : Ends t ↔ Ends s

section

variable {s t : Bytes} (h : Respaced (fun b => Bytes.isBlank b = true) s t)
include h

theorem Begins.respaced (hs : Begins s) : Begins t := by
  obtain ⟨b, hb, hblank⟩ := hs
  refine ⟨b, (h.symm.head_mem b hb).resolve_right ?_, hblank⟩
  rw [hblank]
  exact Bool.false_ne_true

theorem Ends.respaced (hs : Ends s) : Ends t := by
  rw [Ends, ← List.head?_reverse] at hs ⊢
  exact Begins.respaced h.reverse hs

/-- Respaced texts have the same gaps. -/
theorem sameGaps_of_respaced : SameGaps s t where
  squeeze := Bytes.squeeze_respaced h.symm
  begins := ⟨.respaced h.symm, .respaced h⟩
  ends := ⟨.respaced h.symm, .respaced h⟩

end

theorem EachText.imp {p q : Bytes → Prop} (hpq : ∀ s, p s → q s) {n : Node} (h : EachText p n) :
    EachText q n := by
  induction h with
  | text h => exact .text (hpq _ h)
  | comment => exact .comment
  | element has _ ih => exact .element (fun a ha => hpq _ (has a ha)) ih

/-! ## Runs trimmed at their ends -/

/-- Siblings without the blanks at their two ends; a text of which nothing is left is left out. -/
def trimEnds (ns : List Node) : List Node := (trimLast (trimFirst ns)).filter (· ≠ .text [])

variable {v : Vocabulary} {ns : List Node}

/-- Empty texts can be dropped before or after a map that makes none. -/
theorem filter_map_text_nil {g : Node → Node} (hg : ∀ n, g n = .text [] ↔ n = .text [])
    (ns : List Node) :
    (ns.map g).filter (· ≠ .text []) = (ns.filter (· ≠ .text [])).map g := by
  rw [List.filter_map]
  refine congrArg (List.map g) (List.filter_congr fun n _ => ?_)
  rw [Function.comp_apply, decide_eq_decide]
  exact not_congr (hg n)

theorem tidy_eq_text_nil {n : Node} : tidy v n = .text [] ↔ n = .text [] := by
  cases n with
  | element =>
    rw [tidy]
    split <;> simp
  | _ => simp [tidy]

theorem mapText_eq_text_nil {f : Bytes → Bytes} (hf : ∀ s, f s = [] ↔ s = []) {n : Node} :
    mapText f n = .text [] ↔ n = .text [] := by
  cases n with
  | text raw => simp [mapText, hf]
  | _ => simp [mapText]

/-- Tidying does not touch texts, so they can be trimmed before or after. -/
theorem trimFirst_tidyAll (ns : List Node) :
    trimFirst (tidyAll v ns) = tidyAll v (trimFirst ns) := by
  cases ns with
  | nil => rfl
  | cons n ns =>
    cases ht : n.isText with
    | false => rw [tidyAll, trimFirst_cons ht, trimFirst_cons (by rw [isText_tidy, ht]), tidyAll]
    | true =>
      obtain ⟨raw, rfl⟩ := Node.isText_iff.mp ht
      rfl

theorem trimLast_tidyAll (ns : List Node) : trimLast (tidyAll v ns) = tidyAll v (trimLast ns) := by
  induction ns with
  | nil => rfl
  | cons n ns ih =>
    cases ns with
    | cons m ns => rw [trimLast_cons, tidyAll, tidyAll, trimLast_cons, ← tidyAll, ih, tidyAll]
    | nil =>
      cases ht : n.isText with
      | false =>
        rw [trimLast_singleton ht, tidyAll, tidyAll, trimLast_singleton (by rw [isText_tidy, ht])]
      | true =>
        obtain ⟨raw, rfl⟩ := Node.isText_iff.mp ht
        rfl

/-- Without empty texts, the trimmed nodes are the tidy ones of what was trimmed before. -/
theorem filter_trimmed (ns : List Node) :
    (trimmed v ns).filter (· ≠ .text []) = tidyAll v (trimEnds ns) := by
  rw [trimmed, trimFirst_tidyAll, trimLast_tidyAll, tidyAll_eq_map,
    filter_map_text_nil (fun _ => tidy_eq_text_nil), ← tidyAll_eq_map, trimEnds]

/-- What is read of a moved run is the trimmed nodes, tidy and with their lines moved. -/
theorem glue_mapTexts_trimmed (pad : Bytes) (k : Nat) (hapart : Apart ns) :
    glue (mapTexts (shift pad k) (trimmed v ns))
      = mapTexts (shift pad k) (tidyAll v (trimEnds ns)) := by
  have hmap : Apart ((trimmed v ns).map (mapText (shift pad k))) :=
    (apart_trimmed hapart).map (isText_mapText _)
  rw [mapTexts_eq_map, glue_eq_filter hmap,
    filter_map_text_nil (fun _ => mapText_eq_text_nil fun _ => shift_eq_nil_iff), filter_trimmed,
    mapTexts_eq_map]

section

variable {o : ParseOptions} {pad : Bytes} (hpad : ∀ b ∈ pad, isIndent b = true)
  (hapart : Apart ns) (hsound : ∀ n ∈ ns, n.Sound) (hc : ∀ n ∈ ns, n.hasComment = false)
include hpad hapart hsound hc

/-- **Running text that has been moved is read as its tidy nodes**, trimmed at their two ends, with
each text moved. -/
theorem parse_shift_trim (hroom : Node.nestingAll ns ≤ o.maxDepth) :
    Document.parse o (shift pad
        (commonIndentation (Bytes.trim Bytes.isBlank (inlineAll v ns)).lines.tail)
        (Bytes.trim Bytes.isBlank (inlineAll v ns)))
      = .ok (mapTexts (shift pad
          (commonIndentation (Bytes.trim Bytes.isBlank (inlineAll v ns)).lines.tail))
          (tidyAll v (trimEnds ns))) := by
  have hrun := run_trimmed (v := v) hpad hapart hsound hc
  rw [← glue_mapTexts_trimmed _ _ hapart, ← hrun.text]
  refine Document.parse_of_written (hrun.loose o.void).written ?_
  rw [Node.nestingAll_glue]
  exact hrun.conveys.nesting.trans hroom

/-- Moving running text leaves the gaps in it. -/
theorem sameGaps_shift_trim : ∀ n ∈ tidyAll v (trimEnds ns),
    EachText (fun t => SameGaps t (shift pad
      (commonIndentation (Bytes.trim Bytes.isBlank (inlineAll v ns)).lines.tail) t)) n := by
  intro n hn
  rw [← filter_trimmed] at hn
  refine (deep_trimmed hapart hsound hc n (List.mem_of_mem_filter hn)).imp fun t ht => ?_
  exact sameGaps_of_respaced (respaced_isBlank_shift hpad ht)

end

/-! ## Running text in a document -/

/-- The nodes are siblings that follow each other, anywhere among `ms` or inside them. -/
inductive Stretch (ns : List Node) : List Node → Prop
  | here {ms : List Node} (h : ns <:+: ms) : Stretch ns ms
  | inside {ms : List Node} {name : Bytes} {as : List Attribute} {children : List Node}
      {selfClosing : Bool} (hmem : .element name as children selfClosing ∈ ms)
      (h : Stretch ns children) : Stretch ns ms

/-- The text `s` is what the siblings `ns` of a document become before they are moved as a block of
lines: a run of inline nodes with some wording among them, or a single element that is running text
as a whole. -/
inductive Flowing (v : Vocabulary) (d : Document) : List Node → Bytes → Prop
  | run {ns : List Node} (h : Stretch ns d) (hinline : ∀ n ∈ ns, isInline v n = true)
      (hwording : ∃ n ∈ ns, n.isWording = true) :
      Flowing v d ns (Bytes.trim Bytes.isBlank (inlineAll v ns))
  | verbatim {name : Bytes} {as : List Attribute} {children : List Node} {selfClosing : Bool}
      (h : Stretch [.element name as children selfClosing] d)
      (hverbatim : isVerbatim v name children = true) :
      Flowing v d [.element name as children selfClosing]
        (inline v (.element name as children selfClosing))

/-- The children of an element are nested no deeper than the element. -/
theorem nestingAll_le_of_mem {ms children : List Node} {name : Bytes} {as : List Attribute}
    {selfClosing : Bool} (hmem : .element name as children selfClosing ∈ ms)
    (hself : selfClosing = true → children = []) :
    Node.nestingAll children ≤ Node.nestingAll ms := by
  refine Nat.le_trans ?_ (Node.nesting_le_nestingAll hmem)
  rw [Node.nesting]
  split
  · next hs => rw [hself hs, Node.nestingAll]
  · exact Nat.le_succ _

/-- Siblings anywhere in sound nodes are sound, and no deeper. -/
theorem Stretch.sound {ms : List Node} (h : Stretch ns ms) (hsound : ∀ n ∈ ms, n.Sound)
    (hapart : Apart ms) :
    (∀ n ∈ ns, n.Sound) ∧ Apart ns ∧ Node.nestingAll ns ≤ Node.nestingAll ms := by
  induction h with
  | here h =>
    refine ⟨fun n hn => hsound n (h.mem hn), List.IsChain.infix hapart h, ?_⟩
    exact Node.nestingAll_le_iff.mpr fun n hn => Node.nesting_le_nestingAll (h.mem hn)
  | inside hmem _ ih =>
    obtain _ | _ | ⟨-, -, hchildren, hchain, hself⟩ := hsound _ hmem
    obtain ⟨hns, hbetween, hle⟩ := ih hchildren hchain
    exact ⟨hns, hbetween, hle.trans (nestingAll_le_of_mem hmem hself)⟩

/-- Both kinds of running text are trimmed siblings without comments: around an element there are no
blanks to trim. -/
theorem Flowing.stretch_and_eq {d : Document} {s : Bytes} (h : Flowing v d ns s) :
    Stretch ns d ∧ (∀ n ∈ ns, n.hasComment = false) ∧
      s = Bytes.trim Bytes.isBlank (inlineAll v ns) := by
  cases h with
  | run h hinline _ => exact ⟨h, fun n hn => hasComment_of_isInline (hinline n hn), rfl⟩
  | verbatim h hverbatim =>
    refine ⟨h, List.forall_mem_singleton.mpr ?_, (trim_inlineAll_singleton rfl).symm⟩
    rw [Node.hasComment, hasComment_of_isVerbatim hverbatim]

/-- **White space in running text is neither made nor lost.**  What is written for running text, up
to the indentation before it and the line feed behind it, is read as the nodes it was made of: tidy,
which leaves alone all texts but the blank content of elements, and trimmed at their two ends.  The
texts in them have become others with the same gaps. -/
theorem parse_moveLines {o : ParseOptions} {src unit s : Bytes} {d : Document}
    (hparse : Document.parse o src = .ok d) (hflow : Flowing v d ns s)
    (hunit : ∀ b ∈ unit, isIndent b = true) (depth : Nat) :
    ∃ (out : Bytes) (f : Bytes → Bytes),
      Line.renderAll unit (moveLines depth s)
        = Line.pad unit depth ++ out ++ Bytes.utf8 "\n" ∧
      Document.parse o out = .ok (mapTexts f (tidyAll v (trimEnds ns))) ∧
      ∀ n ∈ tidyAll v (trimEnds ns), EachText (fun t => SameGaps t (f t)) n := by
  obtain ⟨hwritten, hroom⟩ := Document.written_of_parse hparse
  obtain ⟨hstretch, hc, rfl⟩ := hflow.stretch_and_eq
  obtain ⟨hsound, hapart, hle⟩ := hstretch.sound hwritten.sound.1 hwritten.sound.2
  have hpad := isIndent_of_mem_pad hunit depth
  exact ⟨_, _, renderAll_moveLines unit depth fun h => ends_trim (List.ne_nil_of_mem h),
    parse_shift_trim hpad hapart hsound hc (hle.trans hroom),
    sameGaps_shift_trim hpad hapart hsound hc⟩

/-- Lines begin inside a nested element and right before a tag; an element is blank inside. -/
theorem parse_moveLines_nested :
    ∃ (out : Bytes) (f : Bytes → Bytes),
      Line.renderAll (Bytes.utf8 "\t")
          (moveLines 2 (Bytes.utf8 "hi <b> x\n      y </b>z\n  <i/>"))
        = Line.pad (Bytes.utf8 "\t") 2 ++ out ++ Bytes.utf8 "\n" ∧
      Document.parse {} out = .ok (mapTexts f [.text (Bytes.utf8 "hi "),
        .element (Bytes.utf8 "b") [] [.text (Bytes.utf8 " x\n      y ")] false,
        .text (Bytes.utf8 "z\n  "), .element (Bytes.utf8 "i") [] [] true]) ∧
      SameGaps (Bytes.utf8 "z\n  ") (f (Bytes.utf8 "z\n  ")) := by
  have hparse : Document.parse {}
      (Bytes.utf8 "<div>\n  hi <b> x\n      y </b>z\n  <i> </i>\n</div>")
        = .ok [.element (Bytes.utf8 "div") [] [.text (Bytes.utf8 "\n  hi "),
          .element (Bytes.utf8 "b") [] [.text (Bytes.utf8 " x\n      y ")] false,
          .text (Bytes.utf8 "z\n  "),
          .element (Bytes.utf8 "i") [] [.text (Bytes.utf8 " ")] false,
          .text (Bytes.utf8 "\n")] false] := by
    decide +kernel
  have hunit : ∀ b ∈ Bytes.utf8 "\t", isIndent b = true := by decide
  obtain ⟨out, f, hout, hms, hgaps⟩ := parse_moveLines (v := .standard) hparse
    (.run (.inside (List.mem_singleton_self _) (.here (List.infix_refl _))) (by decide +kernel)
      (by decide +kernel)) hunit 2
  have hz := eachText_text_iff.mp (hgaps (.text (Bytes.utf8 "z\n  ")) (by decide +kernel))
  refine ⟨out, f, ?_, hms.trans ?_, hz⟩
  · rw [← hout]
    decide +kernel
  · refine congrArg (fun ns => Except.ok (mapTexts f ns)) ?_
    decide +kernel

end Canonical

end LayoutMarkup

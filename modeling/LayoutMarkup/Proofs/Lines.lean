import LayoutMarkup.Canonical.Lines
import LayoutMarkup.Proofs.Scanning
import Mathlib.Order.Bounds.Basic

/-!
# Proofs/Lines — the words and the lines of a text

Moving a block of lines to a depth replaces blanks behind line feeds and nothing else.  Each line is
moved on its own (`renderAll_moveLines_of_lines`); of a block that ends with something other than a
blank, the text that comes out is `shift pad n s`, with the indentation `pad` in place of `n` bytes
of each line (`renderAll_moveLines`).  `Deep n s` says that these bytes are indentation everywhere,
as they are for the common indentation of a block.  Then the words of the text stay the same
(`words_shift`), and a text that consists of two parts with a mark at the seam can be moved part by
part (`shift_append`).
-/

namespace LayoutMarkup

/-! ## Words -/

/-- A list is a stretch of items that do not satisfy `p`, or goes on behind one that does. -/
theorem split_induction {α : Type} {p : α → Bool} {P : List α → Prop}
    (stretch : ∀ l, (∀ b ∈ l, p b = false) → P l)
    (cons : ∀ l b s, (∀ x ∈ l, p x = false) → p b = true → P s → P (l ++ b :: s)) :
    ∀ s, P s := by
  intro s
  induction hn : s.length using Nat.strongRecOn generalizing s with
  | ind n ih =>
    have hsplit := List.takeWhile_append_dropWhile (p := fun b => !p b) (l := s)
    have hstretch : ∀ b ∈ s.takeWhile (fun b => !p b), p b = false := fun b hb => by
      simpa using List.mem_takeWhile_imp hb
    cases hd : s.dropWhile (fun b => !p b) with
    | nil =>
      rw [hd, List.append_nil] at hsplit
      rw [hsplit] at hstretch
      exact stretch s hstretch
    | cons b t =>
      have hb : p b = true := by
        simpa using head?_dropWhile (p := fun b => !p b) (s := s) b (by rw [hd]; rfl)
      rw [hd] at hsplit
      rw [← hsplit] at hn ⊢
      refine cons _ b t hstretch hb (ih t.length ?_ t rfl)
      rw [← hn, List.length_append, List.length_cons]
      omega

namespace Bytes

@[simp] theorem words_nil : words [] = [] := rfl

/-- A blank parts the words. -/
theorem words_append_cons (s t : Bytes) {b : UInt8} (hb : isBlank b = true) :
    words (s ++ b :: t) = words s ++ words t := by
  rw [words, List.splitOnP_append_cons s t hb, List.filter_append]
  rfl

/-- A blank at the beginning belongs to no word. -/
theorem words_cons {b : UInt8} (hb : isBlank b = true) (s : Bytes) : words (b :: s) = words s :=
  words_append_cons [] s hb

/-- Blanks at the beginning belong to no word. -/
theorem words_blanks_append {w : Bytes} (hw : ∀ b ∈ w, isBlank b = true) (s : Bytes) :
    words (w ++ s) = words s := by
  induction w with
  | nil => rfl
  | cons b w ih =>
    obtain ⟨hb, hw⟩ := List.forall_mem_cons.mp hw
    rw [List.cons_append, words_cons hb, ih hw]

theorem words_blanks {w : Bytes} (hw : ∀ b ∈ w, isBlank b = true) : words w = [] := by
  have := words_blanks_append hw []
  rwa [List.append_nil] at this

/-- Blanks at the end belong to no word. -/
theorem words_append_blanks (s : Bytes) {w : Bytes} (hw : ∀ b ∈ w, isBlank b = true) :
    words (s ++ w) = words s := by
  cases w with
  | nil => rw [List.append_nil]
  | cons b w =>
    obtain ⟨hb, hw⟩ := List.forall_mem_cons.mp hw
    rw [words_append_cons s w hb, words_blanks hw, List.append_nil]

/-- Where there is no blank, there is one word. -/
theorem words_word {w : Bytes} (hne : w ≠ []) (hw : ∀ b ∈ w, isBlank b = false) :
    words w = [w] := by
  rw [words, List.splitOnP_eq_singleton hw]
  simp [hne]

/-- A word is not empty, and is made of bytes of the text that are not blank. -/
theorem mem_words {s w : Bytes} (h : w ∈ words s) :
    w ≠ [] ∧ (∀ b ∈ w, isBlank b = false) ∧ ∀ b ∈ w, b ∈ s := by
  induction s using split_induction (p := isBlank) with
  | stretch l hl =>
    by_cases hne : l = []
    · subst hne
      cases h
    · rw [words_word hne hl, List.mem_singleton] at h
      subst h
      exact ⟨hne, hl, fun _ hb => hb⟩
  | cons l b s hl hb ih =>
    rw [words_append_cons l s hb, List.mem_append] at h
    rcases h with h | h
    · by_cases hne : l = []
      · subst hne
        cases h
      · rw [words_word hne hl, List.mem_singleton] at h
        subst h
        exact ⟨hne, hl, fun _ hb => List.mem_append_left _ hb⟩
    · obtain ⟨hne, hw, hmem⟩ := ih h
      exact ⟨hne, hw, fun x hx => List.mem_append_right _ (List.mem_cons_of_mem _ (hmem x hx))⟩

/-- There are no words exactly where there are only blanks. -/
theorem words_eq_nil_iff {s : Bytes} : words s = [] ↔ s.all isBlank = true := by
  rw [List.all_eq_true]
  refine ⟨fun h => ?_, words_blanks⟩
  induction s using split_induction (p := isBlank) with
  | stretch l hl =>
    by_cases hne : l = []
    · simp [hne]
    · rw [words_word hne hl] at h
      cases h
  | cons l b s hl hb ih =>
    rw [words_append_cons l s hb, List.append_eq_nil_iff] at h
    obtain ⟨hl', hs⟩ := h
    have hnil : l = [] := by
      by_contra hne
      rw [words_word hne hl] at hl'
      cases hl'
    rw [hnil, List.nil_append]
    exact List.forall_mem_cons.mpr ⟨hb, ih hs⟩

/-- Words with spaces between them are found again. -/
theorem words_intercalate {ws : List Bytes}
    (h : ∀ w ∈ ws, w ≠ [] ∧ ∀ b ∈ w, isBlank b = false) :
    words ((utf8 " ").intercalate ws) = ws := by
  induction ws with
  | nil => rfl
  | cons w ws ih =>
    obtain ⟨⟨hne, hw⟩, hws⟩ := List.forall_mem_cons.mp h
    cases ws with
    | nil => rw [List.intercalate_singleton, words_word hne hw]
    | cons w' ws =>
      have hspace : utf8 " " = [0x20] := rfl
      have hsep := words_append_cons w ((utf8 " ").intercalate (w' :: ws)) (b := 0x20) (by decide)
      rw [List.intercalate_cons_cons, hspace, List.append_assoc, List.singleton_append]
      rw [hspace] at hsep ih
      rw [hsep, words_word hne hw, ih hws]
      rfl

/-- Collapsing a text keeps its words. -/
theorem words_collapse (s : Bytes) : words (collapse s) = words s :=
  words_intercalate fun _ hw => ⟨(mem_words hw).1, (mem_words hw).2.1⟩

/-! ## Lines -/

/-- A line feed. -/
abbrev lf : UInt8 := '\n'.toUInt8

/-- Without a line feed there is one line. -/
theorem lines_of_not_mem {l : Bytes} (h : lf ∉ l) : l.lines = [l] := by
  refine List.splitOnP_eq_singleton fun b hb => beq_eq_false_iff_ne.mpr ?_
  rintro rfl
  exact h hb

/-- The first line goes up to the first line feed. -/
theorem lines_append_cons {l : Bytes} (h : lf ∉ l) (s : Bytes) :
    (l ++ lf :: s).lines = l :: s.lines := by
  refine List.splitOnP_append_cons_of_forall_mem (fun b hb => beq_eq_false_iff_ne.mpr ?_) _
    (by simp) _
  rintro rfl
  exact h hb

/-- A text is a line, or a line with a text behind its line feed. -/
theorem lines_induction {P : Bytes → Prop} (line : ∀ l, lf ∉ l → P l)
    (cons : ∀ l s, lf ∉ l → P s → P (l ++ lf :: s)) : ∀ s, P s := by
  have hmem {l : Bytes} (hl : ∀ b ∈ l, (b == lf) = false) : lf ∉ l := fun h =>
    absurd (hl _ h) (by simp)
  refine split_induction (p := (· == lf)) (fun l hl => line l (hmem hl)) fun l b s hl hb hs => ?_
  rw [eq_of_beq hb]
  exact cons l s (hmem hl) hs

/-- There is no line feed in a line. -/
theorem not_mem_of_mem_lines {l s : Bytes} (h : l ∈ s.lines) : lf ∉ l := by
  induction s using lines_induction with
  | line m hm =>
    rw [lines_of_not_mem hm, List.mem_singleton] at h
    rwa [h]
  | cons m s hm ih =>
    rw [lines_append_cons hm, List.mem_cons] at h
    rcases h with rfl | h
    · exact hm
    · exact ih h

end Bytes

namespace Canonical

open Bytes (lf lines_of_not_mem lines_append_cons lines_induction)

theorem isBlank_of_isIndent {b : UInt8} (h : isIndent b = true) : Bytes.isBlank b = true := by
  simp only [isIndent, Bool.or_eq_true, beq_iff_eq] at h
  rcases h with rfl | rfl <;> decide

/-- The indentation of a level is made of what a line can be indented with. -/
theorem isIndent_of_mem_pad {unit : Bytes} (hunit : ∀ b ∈ unit, isIndent b = true) (depth : Nat) :
    ∀ b ∈ Line.pad unit depth, isIndent b = true := by
  intro b hb
  obtain ⟨l, hl, hb⟩ := List.mem_flatten.mp hb
  rw [List.eq_of_mem_replicate hl] at hb
  exact hunit b hb

/-! ## Moving the lines behind the first one -/

/-- A line behind the first one, with the indentation `pad` in place of `n` bytes of it. -/
def movedLine (pad : Bytes) (n : Nat) (l : Bytes) : Bytes :=
  if isBlankLine l then [] else pad ++ l.drop n

/-- Lines behind the first one, with the indentation `pad` in place of `n` bytes of each.  Blank
ones become empty, but the last of them may go on. -/
def moved (pad : Bytes) (n : Nat) : List Bytes → Bytes
  | [] => []
  | [l] => lf :: (pad ++ l.drop n)
  | l :: m :: ls => lf :: (movedLine pad n l ++ moved pad n (m :: ls))

/-- A text, with the indentation `pad` in place of `n` bytes of each line but the first. -/
def shift (pad : Bytes) (n : Nat) (s : Bytes) : Bytes :=
  match s.lines with
  | [] => []
  | first :: rest => first ++ moved pad n rest

/-- The lines, all but the blank ones, are indented by at least `n`, and so is the last one. -/
def DeepLines (n : Nat) : List Bytes → Prop
  | [] => True
  | [l] => n ≤ indentation l
  | l :: m :: ls => (isBlankLine l = false → n ≤ indentation l) ∧ DeepLines n (m :: ls)

/-- Every line but the first is indented by at least `n`, unless it is blank. -/
def Deep (n : Nat) (s : Bytes) : Prop := DeepLines n s.lines.tail

variable {pad : Bytes} {n : Nat} {l s t : Bytes}

theorem lines_ne_nil (s : Bytes) : s.lines ≠ [] := by
  induction s using lines_induction with
  | line l hl => simp [lines_of_not_mem hl]
  | cons l s hl _ => simp [lines_append_cons hl]

/-- A text of one line stays as it is. -/
theorem shift_line (h : lf ∉ l) : shift pad n l = l := by
  rw [shift, lines_of_not_mem h]
  exact List.append_nil l

/-- The first line of a text stays where it is. -/
theorem shift_cons (h : lf ∉ l) (s : Bytes) :
    shift pad n (l ++ lf :: s) = l ++ moved pad n s.lines := by
  rw [shift, lines_append_cons h]

/-- The last line is moved even if it is blank, since the text may go on behind it. -/
theorem moved_line (h : lf ∉ l) : moved pad n l.lines = lf :: (pad ++ l.drop n) := by
  rw [lines_of_not_mem h, moved]

/-- A line that is not the last one is moved on its own, and emptied if it is blank. -/
theorem moved_cons (h : lf ∉ l) (s : Bytes) :
    moved pad n (l ++ lf :: s).lines = lf :: (movedLine pad n l ++ moved pad n s.lines) := by
  rw [lines_append_cons h]
  obtain ⟨m, ms, hms⟩ := List.exists_cons_of_ne_nil (lines_ne_nil s)
  rw [hms, moved]

theorem deep_line (h : lf ∉ l) : Deep n l := by
  rw [Deep, lines_of_not_mem h]
  trivial

theorem deep_cons (h : lf ∉ l) (s : Bytes) : Deep n (l ++ lf :: s) ↔ DeepLines n s.lines := by
  rw [Deep, lines_append_cons h, List.tail_cons]

/-- The last line has to be deep enough even if it is blank. -/
theorem deepLines_line (h : lf ∉ l) : DeepLines n l.lines ↔ n ≤ indentation l := by
  rw [lines_of_not_mem h, DeepLines]

/-- A line that is not the last one has to be deep enough unless it is blank. -/
theorem deepLines_cons (h : lf ∉ l) (s : Bytes) : DeepLines n (l ++ lf :: s).lines
    ↔ (isBlankLine l = false → n ≤ indentation l) ∧ DeepLines n s.lines := by
  rw [lines_append_cons h]
  obtain ⟨m, ms, hms⟩ := List.exists_cons_of_ne_nil (lines_ne_nil s)
  rw [hms, DeepLines]

/-! ## Indentation -/

theorem indentation_le_length (l : Bytes) : indentation l ≤ l.length :=
  (List.takeWhile_prefix isIndent).length_le

/-- What is cut off a line is indentation. -/
theorem isIndent_of_mem_take (h : n ≤ indentation l) : ∀ b ∈ l.take n, isIndent b = true := by
  intro b hb
  rw [← List.takeWhile_append_dropWhile (p := isIndent) (l := l),
    List.take_append_of_le_length h] at hb
  exact List.mem_takeWhile_imp (List.mem_of_mem_take hb)

/-- Cutting off indentation keeps the words. -/
theorem words_drop (h : n ≤ indentation l) : Bytes.words (l.drop n) = l.words := by
  have hblank : ∀ b ∈ l.take n, Bytes.isBlank b = true := fun b hb =>
    isBlank_of_isIndent (isIndent_of_mem_take h b hb)
  have := Bytes.words_blanks_append hblank (l.drop n)
  rwa [List.take_append_drop, eq_comm] at this

/-! ## Parts of a text -/

/-- The text begins with something other than a blank. -/
def Begins (s : Bytes) : Prop := ∃ b ∈ s.head?, Bytes.isBlank b = false

/-- The text ends with something other than a blank. -/
def Ends (s : Bytes) : Prop := ∃ b ∈ s.getLast?, Bytes.isBlank b = false

/-- Something other than a blank stands at the seam between two texts. -/
def Firm (s t : Bytes) : Prop := Ends s ∨ Begins t

/-- How a text ends depends on its last part. -/
theorem ends_append (s : Bytes) {t : Bytes} (h : Ends t) : Ends (s ++ t) := by
  obtain ⟨b, hb, hblank⟩ := h
  refine ⟨b, ?_, hblank⟩
  rw [List.getLast?_append, hb]
  rfl

/-- How a text begins depends on its first part. -/
theorem begins_append {s : Bytes} (h : Begins s) (t : Bytes) : Begins (s ++ t) := by
  obtain ⟨b, hb, hblank⟩ := h
  cases s with
  | nil => cases hb
  | cons x s => exact ⟨b, hb, hblank⟩

/-- Two texts that meet at something that is not blank make no blank line. -/
theorem Firm.isBlankLine (h : Firm s t) : isBlankLine (s ++ t) = false := by
  have hmem : ∃ b ∈ s ++ t, Bytes.isBlank b = false := by
    rcases h with ⟨b, hb, hblank⟩ | ⟨b, hb, hblank⟩
    · exact ⟨b, List.mem_append_left _ (List.mem_of_getLast? hb), hblank⟩
    · exact ⟨b, List.mem_append_right _ (List.mem_of_mem_head? hb), hblank⟩
  obtain ⟨b, hb, hblank⟩ := hmem
  rw [Canonical.isBlankLine, List.all_eq_false]
  exact ⟨b, hb, by simp [hblank]⟩

/-- Where two texts meet at something that is not blank, the indentation ends in the first. -/
theorem Firm.indentation (h : Firm s t) : indentation (s ++ t) = indentation s := by
  rw [Canonical.indentation, Canonical.indentation, List.takeWhile_append]
  have hindent {b : UInt8} (hb : Bytes.isBlank b = false) : isIndent b = false := by
    by_contra hi
    rw [isBlank_of_isIndent (by simpa using hi)] at hb
    cases hb
  split
  · next hall =>
    -- All of `s` is indentation, so the mark stands in `t`.
    have hs : ∀ b ∈ s, isIndent b = true := by
      have := (List.takeWhile_prefix isIndent (l := s)).eq_of_length hall
      exact List.takeWhile_eq_self_iff.mp this
    obtain ⟨b, hb, hblank⟩ : Begins t := by
      refine h.resolve_left ?_
      rintro ⟨b, hb, hblank⟩
      have := hindent hblank
      rw [hs b (List.mem_of_getLast? hb)] at this
      cases this
    cases t with
    | nil => cases hb
    | cons x t =>
      obtain rfl : x = b := by simpa using hb
      rw [List.takeWhile_cons_of_neg (by simp [hindent hblank]), List.append_nil, hall]
  · rfl

/-- Of a text, only the last line matters for where it meets the next one. -/
theorem Firm.of_cons (h : Firm (l ++ lf :: s) t) : Firm s t := by
  rcases h with ⟨b, hb, hblank⟩ | h
  · cases s with
    | nil =>
      obtain rfl : lf = b := by simpa using hb
      cases hblank
    | cons x s =>
      refine .inl ⟨b, ?_, hblank⟩
      rwa [List.getLast?_append_of_ne_nil _ (by simp), List.getLast?_cons_cons] at hb
  · exact .inr h

/-- Of a text, only the first line matters for where it meets the one before. -/
theorem Firm.left_of_cons (h : Firm s (l ++ lf :: t)) : Firm s l := by
  rcases h with h | ⟨b, hb, hblank⟩
  · exact .inl h
  · cases l with
    | nil =>
      obtain rfl : lf = b := by simpa using hb
      cases hblank
    | cons x l => exact .inr ⟨b, hb, hblank⟩

theorem not_mem_append {l m : Bytes} (hl : lf ∉ l) (hm : lf ∉ m) : lf ∉ l ++ m := fun h =>
  (List.mem_append.mp h).elim hl hm

/-- How deep the lines are is seen part by part; the last line of the first part and the first of
the second are one. -/
theorem deepLines_append (h : Firm s t) :
    DeepLines n (s ++ t).lines ↔ DeepLines n s.lines ∧ Deep n t := by
  induction s using lines_induction with
  | line l hl =>
    rw [deepLines_line hl]
    induction t using lines_induction with
    | line m hm =>
      rw [deepLines_line (not_mem_append hl hm), h.indentation]
      exact ⟨fun hn => ⟨hn, deep_line hm⟩, And.left⟩
    | cons m t hm _ =>
      have hjoin := h.left_of_cons
      rw [← List.append_assoc, deepLines_cons (not_mem_append hl hm), deep_cons hm,
        hjoin.isBlankLine, hjoin.indentation]
      simp
  | cons l s hl ih =>
    rw [List.append_assoc, List.cons_append, deepLines_cons hl, deepLines_cons hl, ih h.of_cons,
      and_assoc]

/-- How deep a text is is seen part by part. -/
theorem deep_append (h : Firm s t) : Deep n (s ++ t) ↔ Deep n s ∧ Deep n t := by
  induction s using lines_induction with
  | line l hl =>
    refine Iff.trans ?_ (and_iff_right (deep_line hl)).symm
    induction t using lines_induction with
    | line m hm => exact iff_of_true (deep_line (not_mem_append hl hm)) (deep_line hm)
    | cons m t hm _ =>
      rw [← List.append_assoc, deep_cons (not_mem_append hl hm), deep_cons hm]
  | cons l s hl _ =>
    rw [List.append_assoc, List.cons_append, deep_cons hl, deep_cons hl,
      deepLines_append h.of_cons]

/-- What stands behind a text without line feeds is moved on its own. -/
theorem shift_line_append (h : lf ∉ l) (t : Bytes) :
    shift pad n (l ++ t) = l ++ shift pad n t := by
  induction t using lines_induction with
  | line m hm => rw [shift_line (not_mem_append h hm), shift_line hm]
  | cons m t hm _ =>
    rw [← List.append_assoc, shift_cons (not_mem_append h hm), shift_cons hm, List.append_assoc]

/-- Lines are moved part by part. -/
theorem moved_append (h : Firm s t) (hs : DeepLines n s.lines) :
    moved pad n (s ++ t).lines = moved pad n s.lines ++ shift pad n t := by
  induction s using lines_induction with
  | line l hl =>
    have hle : n ≤ l.length := le_trans ((deepLines_line hl).mp hs) (indentation_le_length l)
    induction t using lines_induction with
    | line m hm =>
      rw [moved_line (not_mem_append hl hm), moved_line hl, shift_line hm,
        List.drop_append_of_le_length hle]
      simp
    | cons m t hm _ =>
      rw [← List.append_assoc, moved_cons (not_mem_append hl hm), moved_line hl, shift_cons hm,
        movedLine, h.left_of_cons.isBlankLine, List.drop_append_of_le_length hle]
      simp
  | cons l s hl ih =>
    rw [List.append_assoc, List.cons_append, moved_cons hl, moved_cons hl,
      ih h.of_cons ((deepLines_cons hl s).mp hs).2]
    simp

/-- **A text can be moved part by part.** -/
theorem shift_append (h : Firm s t) (hs : Deep n s) :
    shift pad n (s ++ t) = shift pad n s ++ shift pad n t := by
  induction s using lines_induction with
  | line l hl => rw [shift_line_append hl, shift_line hl]
  | cons l s hl _ =>
    rw [List.append_assoc, List.cons_append, shift_cons hl, shift_cons hl,
      moved_append h.of_cons ((deep_cons hl s).mp hs), List.append_assoc]

/-! ## What moving a text keeps -/

/-- Moved lines begin with the line feed before them. -/
theorem moved_eq_cons (pad : Bytes) (n : Nat) (s : Bytes) :
    ∃ y, moved pad n s.lines = lf :: y := by
  induction s using lines_induction with
  | line l hl => exact ⟨_, moved_line hl⟩
  | cons l s hl _ => exact ⟨_, moved_cons hl s⟩

theorem isBlank_lf : Bytes.isBlank lf = true := by decide

/-- What stands before moved lines shares no word with them. -/
theorem words_append_moved (x : Bytes) :
    Bytes.words (x ++ moved pad n s.lines) = x.words ++ Bytes.words (moved pad n s.lines) := by
  obtain ⟨y, hy⟩ := moved_eq_cons pad n s
  rw [hy, Bytes.words_append_cons x y isBlank_lf, Bytes.words_cons isBlank_lf]

/-- Moving lines keeps their words. -/
theorem words_moved (hpad : ∀ b ∈ pad, isIndent b = true) (h : DeepLines n s.lines) :
    Bytes.words (moved pad n s.lines) = s.words := by
  have hblank : ∀ b ∈ pad, Bytes.isBlank b = true := fun b hb => isBlank_of_isIndent (hpad b hb)
  induction s using lines_induction with
  | line l hl =>
    rw [moved_line hl, Bytes.words_cons isBlank_lf, Bytes.words_blanks_append hblank,
      words_drop ((deepLines_line hl).mp h)]
  | cons l s hl ih =>
    obtain ⟨hle, hs⟩ := (deepLines_cons hl s).mp h
    rw [moved_cons hl, Bytes.words_cons isBlank_lf, words_append_moved, ih hs,
      Bytes.words_append_cons l s isBlank_lf]
    congr 1
    rw [movedLine]
    split
    · next hb => rw [Bytes.words_nil, Bytes.words_eq_nil_iff.mpr hb]
    · next hb => rw [Bytes.words_blanks_append hblank, words_drop (hle (by simpa using hb))]

/-- **Moving a text keeps its words.** -/
theorem words_shift (hpad : ∀ b ∈ pad, isIndent b = true) (h : Deep n s) :
    Bytes.words (shift pad n s) = s.words := by
  induction s using lines_induction with
  | line l hl => rw [shift_line hl]
  | cons l s hl _ =>
    rw [shift_cons hl, words_append_moved, words_moved hpad ((deep_cons hl s).mp h),
      Bytes.words_append_cons l s isBlank_lf]

/-- Moving brings in line feeds and bytes of the indentation, and nothing else. -/
theorem mem_moved {b : UInt8} (h : b ∈ moved pad n s.lines) : b ∈ pad ∨ b = lf ∨ b ∈ s := by
  induction s using lines_induction with
  | line l hl =>
    rw [moved_line hl, List.mem_cons, List.mem_append] at h
    rcases h with h | h | h
    · exact .inr (.inl h)
    · exact .inl h
    · exact .inr (.inr (List.mem_of_mem_drop h))
  | cons l s hl ih =>
    rw [moved_cons hl, List.mem_cons, List.mem_append] at h
    rcases h with h | h | h
    · exact .inr (.inl h)
    · rw [movedLine] at h
      split at h
      · cases h
      · rcases List.mem_append.mp h with h | h
        · exact .inl h
        · exact .inr (.inr (List.mem_append_left _ (List.mem_of_mem_drop h)))
    · rcases ih h with h | h | h
      · exact .inl h
      · exact .inr (.inl h)
      · exact .inr (.inr (List.mem_append_right _ (List.mem_cons_of_mem _ h)))

/-- Moving a text brings in bytes of the indentation, and nothing else. -/
theorem mem_shift {b : UInt8} (h : b ∈ shift pad n s) : b ∈ pad ∨ b ∈ s := by
  induction s using lines_induction with
  | line l hl =>
    rw [shift_line hl] at h
    exact .inr h
  | cons l s hl _ =>
    rw [shift_cons hl, List.mem_append] at h
    rcases h with h | h
    · exact .inr (List.mem_append_left _ h)
    · rcases mem_moved h with h | rfl | h
      · exact .inl h
      · exact .inr (List.mem_append_right _ List.mem_cons_self)
      · exact .inr (List.mem_append_right _ (List.mem_cons_of_mem _ h))

/-- A moved text begins as before. -/
theorem head?_shift (pad : Bytes) (n : Nat) (s : Bytes) : (shift pad n s).head? = s.head? := by
  induction s using lines_induction with
  | line l hl => rw [shift_line hl]
  | cons l s hl _ =>
    obtain ⟨y, hy⟩ := moved_eq_cons pad n s
    rw [shift_cons hl, hy]
    cases l <;> rfl

theorem shift_eq_nil_iff : shift pad n s = [] ↔ s = [] := by
  rw [← List.head?_eq_none_iff, head?_shift, List.head?_eq_none_iff]

/-! ## Blocks of lines -/

/-- Of a text, only the last line matters for how it ends. -/
theorem Ends.of_cons (h : Ends (l ++ lf :: s)) : Ends s := by
  have hfirm : Firm s [] := Firm.of_cons (.inl h)
  rcases hfirm with h | ⟨b, hb, -⟩
  · exact h
  · cases hb

theorem Ends.isBlankLine (h : Ends s) : isBlankLine s = false := by
  have := Firm.isBlankLine (.inl h : Firm s [])
  rwa [List.append_nil] at this

/-- Cutting off indentation does not change how a line ends. -/
theorem Ends.drop (h : Ends l) (hn : n ≤ indentation l) : Ends (l.drop n) := by
  obtain ⟨b, hb, hblank⟩ := h
  refine ⟨b, ?_, hblank⟩
  have hlt : n < l.length := by
    by_contra hle
    have hall : ∀ b ∈ l, isIndent b = true := by
      have hmem := isIndent_of_mem_take hn
      rwa [List.take_of_length_le (Nat.not_lt.mp hle)] at hmem
    rw [isBlank_of_isIndent (hall b (List.mem_of_getLast? hb))] at hblank
    cases hblank
  rw [List.getLast?_drop, if_neg (Nat.not_le.mpr hlt)]
  exact hb

/-- Moving lines does not change how they end. -/
theorem Ends.moved (pad : Bytes) (h : Ends s) (hdeep : DeepLines n s.lines) :
    Ends (moved pad n s.lines) := by
  induction s using lines_induction with
  | line l hl =>
    rw [moved_line hl]
    exact ends_append (lf :: pad) (h.drop ((deepLines_line hl).mp hdeep))
  | cons l s hl ih =>
    rw [moved_cons hl]
    exact ends_append (lf :: movedLine pad n l) (ih h.of_cons ((deepLines_cons hl s).mp hdeep).2)

/-- Moving a text keeps what it ends with. -/
theorem Ends.shift (pad : Bytes) (h : Ends s) (hdeep : Deep n s) : Ends (shift pad n s) := by
  induction s using lines_induction with
  | line l hl => rwa [shift_line hl]
  | cons l s hl _ =>
    rw [shift_cons hl]
    exact ends_append l (h.of_cons.moved pad ((deep_cons hl s).mp hdeep))

theorem movedLine_of_not_blank (h : isBlankLine l = false) :
    movedLine pad n l = pad ++ l.drop n := by
  rw [movedLine, h]
  rfl

/-- A line that is printed at a depth is the moved line. -/
theorem render_moveLine (unit : Bytes) (depth n : Nat) (l : Bytes) :
    (moveLine depth n l).render unit = movedLine (Line.pad unit depth) n l ++ [lf] := by
  rw [moveLine, movedLine]
  split <;> rfl

/-- The lines of a block are its first line as it is, and the others moved together. -/
theorem moveLines_of_lines {depth : Nat} {ls : List Bytes} (h : s.lines = l :: ls) :
    moveLines depth s = .indented depth l :: ls.map (moveLine depth (commonIndentation ls)) := by
  rw [moveLines, h]

theorem append_renderAll_moveLine (unit : Bytes) (depth n : Nat) (l : Bytes) (ls : List Bytes) :
    l ++ lf :: Line.renderAll unit (ls.map (moveLine depth n))
      = [lf].intercalate (l :: ls.map (movedLine (Line.pad unit depth) n)) ++ [lf] := by
  induction ls generalizing l with
  | nil => simp [List.intercalate_singleton]
  | cons m ls ih =>
    rw [List.map_cons, Line.renderAll_cons, render_moveLine, List.map_cons,
      List.intercalate_cons_cons, List.append_assoc _ _ [lf], ← ih]
    simp

/-- A block of lines comes out line by line. -/
theorem renderAll_moveLines_of_lines (unit : Bytes) (depth : Nat) {ls : List Bytes}
    (h : s.lines = l :: ls) :
    Line.renderAll unit (moveLines depth s) = Line.pad unit depth
      ++ [lf].intercalate (l :: ls.map (movedLine (Line.pad unit depth) (commonIndentation ls)))
      ++ [lf] := by
  have hfirst : (Line.indented depth l).render unit = Line.pad unit depth ++ l ++ [lf] := rfl
  rw [moveLines_of_lines h, Line.renderAll_cons, hfirst, List.append_assoc _ ([lf].intercalate _),
    ← append_renderAll_moveLine]
  simp

/-- If the last line is not blank, all lines are moved alike. -/
theorem moved_eq_intercalate (h : Ends s) :
    moved pad n s.lines = lf :: [lf].intercalate (s.lines.map (movedLine pad n)) := by
  induction s using lines_induction with
  | line l hl =>
    rw [moved_line hl, lines_of_not_mem hl, List.map_singleton, List.intercalate_singleton,
      movedLine_of_not_blank h.isBlankLine]
  | cons l s hl ih =>
    have hne : s.lines.map (movedLine pad n) ≠ [] := by simp [lines_ne_nil]
    rw [moved_cons hl, ih h.of_cons, lines_append_cons hl, List.map_cons,
      List.intercalate_cons_of_ne_nil hne]
    simp

/-- If the last line is not blank, all lines behind the first are moved alike. -/
theorem shift_eq_intercalate {ls : List Bytes} (h : lf ∈ s → Ends s) (hs : s.lines = l :: ls) :
    shift pad n s = [lf].intercalate (l :: ls.map (movedLine pad n)) := by
  induction s using lines_induction with
  | line m hm =>
    rw [lines_of_not_mem hm] at hs
    obtain ⟨rfl, rfl⟩ := List.cons.inj hs
    rw [shift_line hm, List.map_nil, List.intercalate_singleton]
  | cons m s hm _ =>
    rw [lines_append_cons hm] at hs
    obtain ⟨rfl, rfl⟩ := List.cons.inj hs
    have hne : s.lines.map (movedLine pad n) ≠ [] := by simp [lines_ne_nil]
    rw [shift_cons hm, moved_eq_intercalate (h (by simp)).of_cons,
      List.intercalate_cons_of_ne_nil hne]
    simp

/-- **A block of lines comes out as the text, moved.** -/
theorem renderAll_moveLines (unit : Bytes) (depth : Nat) (h : lf ∈ s → Ends s) :
    Line.renderAll unit (moveLines depth s)
      = Line.pad unit depth ++ shift (Line.pad unit depth) (commonIndentation s.lines.tail) s
          ++ [lf] := by
  obtain ⟨l, ls, hs⟩ := List.exists_cons_of_ne_nil (lines_ne_nil s)
  rw [renderAll_moveLines_of_lines unit depth hs, shift_eq_intercalate h hs, hs, List.tail_cons]

/-- If the last line is not blank, it is enough that those that are not blank are deep enough. -/
theorem deepLines_of_forall (h : ∀ l ∈ s.lines, isBlankLine l = false → n ≤ indentation l)
    (hends : Ends s) : DeepLines n s.lines := by
  induction s using lines_induction with
  | line l hl =>
    rw [deepLines_line hl]
    rw [lines_of_not_mem hl] at h
    exact h l List.mem_cons_self hends.isBlankLine
  | cons l s hl ih =>
    rw [deepLines_cons hl]
    rw [lines_append_cons hl, List.forall_mem_cons] at h
    exact ⟨h.1, ih h.2 hends.of_cons⟩

/-- No line has less than the common indentation, unless it is blank. -/
theorem commonIndentation_le {ls : List Bytes} (hl : l ∈ ls) (hb : isBlankLine l = false) :
    commonIndentation ls ≤ indentation l :=
  List.min?_getD_le_of_mem
    (List.mem_map_of_mem (List.mem_filter.mpr ⟨hl, by simp [hb]⟩))

/-- A block is indented by its common indentation. -/
theorem deep_commonIndentation (h : lf ∈ s → Ends s) : Deep (commonIndentation s.lines.tail) s := by
  induction s using lines_induction with
  | line l hl => exact deep_line hl
  | cons l s hl _ =>
    rw [deep_cons hl, lines_append_cons hl, List.tail_cons]
    exact deepLines_of_forall (fun _ => commonIndentation_le) (h (by simp)).of_cons

/-! ## Moving a block twice -/

theorem isBlankLine_drop (h : n ≤ indentation l) : isBlankLine (l.drop n) = isBlankLine l := by
  rw [Bool.eq_iff_iff, isBlankLine, isBlankLine, ← Bytes.words_eq_nil_iff,
    ← Bytes.words_eq_nil_iff, words_drop h]

theorem indentation_drop (h : n ≤ indentation l) : indentation (l.drop n) = indentation l - n := by
  have hdrop : l.drop n = (l.takeWhile isIndent).drop n ++ l.dropWhile isIndent := by
    rw [← List.drop_append_of_le_length h, List.takeWhile_append_dropWhile]
  have hall : ∀ b ∈ (l.takeWhile isIndent).drop n, isIndent b = true := fun b hb =>
    List.mem_takeWhile_imp (List.mem_of_mem_drop hb)
  rw [indentation, hdrop, takeWhile_append_of_all hall head?_dropWhile, List.length_drop,
    indentation]

theorem indentation_pad_append (hpad : ∀ b ∈ pad, isIndent b = true) (l : Bytes) :
    indentation (pad ++ l) = pad.length + indentation l := by
  rw [indentation, List.takeWhile_append_of_pos hpad, List.length_append, indentation]

/-- A moved line is blank exactly if it was blank before. -/
theorem isBlankLine_movedLine (pad : Bytes) (hn : isBlankLine l = false → n ≤ indentation l) :
    isBlankLine (movedLine pad n l) = isBlankLine l := by
  cases hb : isBlankLine l with
  | true =>
    rw [movedLine, hb]
    rfl
  | false =>
    have hdrop := isBlankLine_drop (hn hb)
    rw [hb, isBlankLine] at hdrop
    rw [movedLine_of_not_blank hb, isBlankLine, List.all_append, hdrop, Bool.and_false]

/-- The indentation of a moved line is the new one, with what was more than the common one before.
-/
theorem indentation_movedLine (hpad : ∀ b ∈ pad, isIndent b = true) (hb : isBlankLine l = false)
    (hn : n ≤ indentation l) :
    indentation (movedLine pad n l) = pad.length + (indentation l - n) := by
  rw [movedLine_of_not_blank hb, indentation_pad_append hpad, indentation_drop hn]

/-- How far the lines with something on them are indented. -/
def indentations (ls : List Bytes) : Set Nat :=
  {k | ∃ l ∈ ls, isBlankLine l = false ∧ indentation l = k}

/-- The common indentation is the least one of a line that is not blank. -/
theorem isLeast_commonIndentation {ls : List Bytes} (h : ∃ l ∈ ls, isBlankLine l = false) :
    IsLeast (indentations ls) (commonIndentation ls) := by
  obtain ⟨l, hl, hb⟩ := h
  have hmem : indentation l ∈ (ls.filter (!isBlankLine ·)).map indentation :=
    List.mem_map_of_mem (List.mem_filter.mpr ⟨hl, by simp [hb]⟩)
  obtain ⟨k, hk⟩ := Option.ne_none_iff_exists'.mp
    (mt List.min?_eq_none_iff.mp (List.ne_nil_of_mem hmem))
  constructor
  · obtain ⟨m, hm, rfl⟩ := List.mem_map.mp (List.min?_eq_some_iff.mp hk).1
    obtain ⟨hm, hmb⟩ := List.mem_filter.mp hm
    exact ⟨m, hm, by simpa using hmb, by rw [commonIndentation, hk]; rfl⟩
  · rintro _ ⟨m, hm, hmb, rfl⟩
    exact commonIndentation_le hm hmb

/-- The least indented lines of a moved block have the new indentation and no more. -/
theorem isLeast_indentations_moved (hpad : ∀ b ∈ pad, isIndent b = true) {ls : List Bytes}
    (h : ∃ l ∈ ls, isBlankLine l = false) :
    IsLeast (indentations (ls.map (movedLine pad (commonIndentation ls)))) pad.length := by
  have hblank {l : Bytes} (hl : l ∈ ls) :=
    isBlankLine_movedLine pad fun hb => commonIndentation_le hl hb
  constructor
  · obtain ⟨m, hm, hmb, hmin⟩ := (isLeast_commonIndentation h).1
    refine ⟨_, List.mem_map_of_mem hm, (hblank hm).trans hmb, ?_⟩
    rw [indentation_movedLine hpad hmb (commonIndentation_le hm hmb), hmin, Nat.sub_self,
      Nat.add_zero]
  · rintro _ ⟨x, hx, hxb, rfl⟩
    obtain ⟨l, hl, rfl⟩ := List.mem_map.mp hx
    rw [hblank hl] at hxb
    rw [indentation_movedLine hpad hxb (commonIndentation_le hl hxb)]
    exact Nat.le_add_right _ _

/-- The lines of a moved block have the new indentation in common. -/
theorem commonIndentation_moved (hpad : ∀ b ∈ pad, isIndent b = true) {ls : List Bytes}
    (h : ∃ l ∈ ls, isBlankLine l = false) :
    commonIndentation (ls.map (movedLine pad (commonIndentation ls))) = pad.length := by
  have hleast := isLeast_indentations_moved hpad h
  obtain ⟨m, hm, hmb, -⟩ := hleast.1
  exact (isLeast_commonIndentation ⟨m, hm, hmb⟩).unique hleast

/-- A moved line is still a single line. -/
theorem not_mem_movedLine (hpad : lf ∉ pad) (hl : lf ∉ l) : lf ∉ movedLine pad n l := by
  rw [movedLine]
  split
  · simp
  · exact not_mem_append hpad fun hmem => hl (List.mem_of_mem_drop hmem)

/-- The lines of a moved block are the lines moved. -/
theorem lines_intercalate_moved (hpad : lf ∉ pad) {ls : List Bytes} (h : s.lines = l :: ls) :
    Bytes.lines ([lf].intercalate (l :: ls.map (movedLine pad n)))
      = l :: ls.map (movedLine pad n) := by
  have hline {m : Bytes} (hm : m ∈ l :: ls) : lf ∉ m :=
    Bytes.not_mem_of_mem_lines (h.symm ▸ hm)
  refine List.splitOn_intercalate lf (List.forall_mem_cons.mpr ⟨hline List.mem_cons_self, ?_⟩)
    (List.cons_ne_nil _ _)
  rw [List.forall_mem_map]
  exact fun m hm => not_mem_movedLine hpad (hline (List.mem_cons_of_mem _ hm))

/-- Lines that have been moved are printed in the same way again. -/
theorem map_moveLine_moved (depth : Nat) (hpad : ∀ b ∈ pad, isIndent b = true) (ls : List Bytes) :
    (ls.map (movedLine pad (commonIndentation ls))).map
        (moveLine depth (commonIndentation (ls.map (movedLine pad (commonIndentation ls)))))
      = ls.map (moveLine depth (commonIndentation ls)) := by
  rw [List.map_map]
  refine List.map_congr_left fun m hm => ?_
  have hblank := isBlankLine_movedLine pad fun hb => commonIndentation_le hm hb
  rw [Function.comp_apply]
  cases hb : isBlankLine m with
  | true => simp [moveLine, hblank, hb]
  | false =>
    -- A line that is not blank is itself the reason that `pad` is what they have in common.
    rw [commonIndentation_moved hpad ⟨m, hm, hb⟩, moveLine, moveLine, hblank, hb,
      movedLine_of_not_blank hb, List.drop_left]

/-- **A moved block stays where it is.** -/
theorem moveLines_intercalate_moved (depth : Nat) (hpad : ∀ b ∈ pad, isIndent b = true)
    {ls : List Bytes} (h : s.lines = l :: ls) :
    moveLines depth ([lf].intercalate (l :: ls.map (movedLine pad (commonIndentation ls))))
      = moveLines depth s := by
  have hfeed : lf ∉ pad := fun hmem => absurd (hpad _ hmem) (by decide)
  rw [moveLines_of_lines (lines_intercalate_moved hfeed h), moveLines_of_lines h,
    map_moveLine_moved depth hpad]

/-- **A block that has been moved is printed in the same way again.** -/
theorem moveLines_shift (unit : Bytes) (depth : Nat)
    (hpad : ∀ b ∈ Line.pad unit depth, isIndent b = true) (h : lf ∈ s → Ends s) :
    moveLines depth (shift (Line.pad unit depth) (commonIndentation s.lines.tail) s)
      = moveLines depth s := by
  obtain ⟨l, ls, hs⟩ := List.exists_cons_of_ne_nil (lines_ne_nil s)
  rw [hs, List.tail_cons, shift_eq_intercalate h hs, moveLines_intercalate_moved depth hpad hs]

end Canonical

end LayoutMarkup

import LayoutMarkup.Expr.Parser
import LayoutMarkup.Proofs.Scanning
import Mathlib.Tactic.IntervalCases

/-!
# Proofs/Lexemes — which lexemes a text consists of

`Lexes s ls` says that the text `s` is the lexemes `ls`, with gaps between them where one would run
into the next.  A text is scanned to its end exactly if it consists of lexemes, and then these are
the ones that come out (`Scan.complete_iff`).
-/

namespace LayoutMarkup

/-! ## Digits and gaps -/

/-- The digits of ASCII. -/
def digitBytes : Bytes := [0x30, 0x31, 0x32, 0x33, 0x34, 0x35, 0x36, 0x37, 0x38, 0x39]

theorem mem_digitBytes {b : UInt8} (h : Bytes.isDigit b = true) : b ∈ digitBytes := by
  simp only [Bytes.isDigit, Bool.and_eq_true, decide_eq_true_eq, UInt8.le_iff_toNat_le] at h
  have hlo : 48 ≤ b.toNat := h.1
  have hhi : b.toNat ≤ 57 := h.2
  rw [← UInt8.ofNat_toNat (x := b)]
  generalize b.toNat = n at hlo hhi ⊢
  interval_cases n <;> decide

/-- The gaps of expressions. -/
def gapBytes : Bytes := [0x20, 0x09, 0x0D, 0x0A]

theorem mem_gapBytes {b : UInt8} (h : Scan.isGap b = true) : b ∈ gapBytes := by
  simp only [Scan.isGap, Bool.or_eq_true, beq_iff_eq] at h
  rcases h with ((rfl | rfl) | rfl) | rfl <;> decide

/-- Gaps between lexemes are blank. -/
theorem isBlank_of_isGap {b : UInt8} (h : Scan.isGap b = true) : Bytes.isBlank b = true :=
  (by decide : ∀ b ∈ gapBytes, Bytes.isBlank b = true) b (mem_gapBytes h)

/-- What begins an identifier can be part of it. -/
theorem isIdentifierPart_of_isIdentifierStart (c : Char) (h : isIdentifierStart c = true) :
    isIdentifierPart c = true := by
  simp only [isIdentifierStart, isIdentifierPart, Bool.or_eq_true] at h ⊢
  tauto

/-- An identifier. -/
def Bytes.IsIdentifier (s : Bytes) : Prop := Bytes.IsWord isIdentifierStart isIdentifierPart s

/-- Is it an operator of arithmetic? -/
def Operator.isArithmetic (op : Operator) : Bool := Expr.isAdditive op || Expr.isMultiplicative op

namespace Lexeme

/-! ## A single lexeme -/

/-- The lexeme is read where the text `rest` follows it. -/
inductive Stands : Lexeme → Bytes → Prop
  | whole {ds rest : Bytes} (hne : ds ≠ []) (hds : ∀ b ∈ ds, Bytes.isDigit b = true)
      (hrest : ∀ b ∈ rest.head?, Bytes.isDigit b = false ∧ b ≠ '.'.toUInt8) :
      Stands (.number ds) rest
  | decimal {ds fs rest : Bytes} (hds : ∀ b ∈ ds, Bytes.isDigit b = true) (hne : fs ≠ [])
      (hfs : ∀ b ∈ fs, Bytes.isDigit b = true)
      (hrest : ∀ b ∈ rest.head?, Bytes.isDigit b = false) :
      Stands (.number (ds ++ '.'.toUInt8 :: fs)) rest
  | name {s rest : Bytes} (hs : s.IsIdentifier) (hrest : rest.Stops isIdentifierPart) :
      Stands (.name s) rest
  | operator {op : Operator} {rest : Bytes} (hop : op.isArithmetic = true) :
      Stands (.operator op) rest
  | leftParen {rest : Bytes} : Stands .leftParen rest
  | rightParen {rest : Bytes} : Stands .rightParen rest

/-- The bytes of numbers. -/
def numberBytes : Bytes := '.'.toUInt8 :: digitBytes

/-- A number is made of digits and points. -/
theorem Stands.mem_numberBytes {t rest : Bytes} (h : Stands (.number t) rest) :
    ∀ b ∈ t, b ∈ numberBytes := by
  have hdigit : ∀ b, Bytes.isDigit b = true → b ∈ numberBytes := fun b hb =>
    List.mem_cons_of_mem _ (mem_digitBytes hb)
  cases h with
  | whole _ hds => exact fun b hb => hdigit b (hds b hb)
  | decimal hds _ hfs =>
    exact List.forall_mem_append.mpr ⟨fun b hb => hdigit b (hds b hb),
      List.forall_mem_cons.mpr ⟨List.mem_cons_self, fun b hb => hdigit b (hfs b hb)⟩⟩

/-- Digits without a point are one number. -/
theorem read_whole {d : UInt8} {ds rest : Bytes} (hds : ∀ b ∈ d :: ds, Bytes.isDigit b = true)
    (hrest : ∀ b ∈ rest.head?, Bytes.isDigit b = false ∧ b ≠ '.'.toUInt8) :
    read d (ds ++ rest) = .ok (.number (d :: ds)) := by
  obtain ⟨hd, hds⟩ := List.forall_mem_cons.mp hds
  have htake : (ds ++ rest).takeWhile Bytes.isDigit = ds :=
    takeWhile_append_of_all hds fun b hb => (hrest b hb).1
  have hdrop : (ds ++ rest).dropWhile Bytes.isDigit = rest :=
    dropWhile_append_of_all hds fun b hb => (hrest b hb).1
  simp only [read, hd, if_true, readNumber, htake, hdrop]
  cases rest with
  | nil => rfl
  | cons b rest => simp [(hrest b rfl).2]

/-- Digits with a point between them are one number. -/
theorem read_decimal {d : UInt8} {ds fs rest : Bytes}
    (hds : ∀ b ∈ d :: ds, Bytes.isDigit b = true) (hne : fs ≠ [])
    (hfs : ∀ b ∈ fs, Bytes.isDigit b = true)
    (hrest : ∀ b ∈ rest.head?, Bytes.isDigit b = false) :
    read d (ds ++ '.'.toUInt8 :: (fs ++ rest))
      = .ok (.number (d :: ds ++ '.'.toUInt8 :: fs)) := by
  obtain ⟨hd, hds⟩ := List.forall_mem_cons.mp hds
  have htake : (ds ++ '.'.toUInt8 :: (fs ++ rest)).takeWhile Bytes.isDigit = ds :=
    takeWhile_append_of_all hds (by simp; decide)
  have hdrop : (ds ++ '.'.toUInt8 :: (fs ++ rest)).dropWhile Bytes.isDigit
      = '.'.toUInt8 :: (fs ++ rest) := dropWhile_append_of_all hds (by simp; decide)
  have hfraction : (fs ++ rest).takeWhile Bytes.isDigit = fs := takeWhile_append_of_all hfs hrest
  simp [read, hd, readNumber, htake, hdrop, hfraction, hne]

/-- A number may begin with its point. -/
theorem read_fraction {fs rest : Bytes} (hne : fs ≠ []) (hfs : ∀ b ∈ fs, Bytes.isDigit b = true)
    (hrest : ∀ b ∈ rest.head?, Bytes.isDigit b = false) :
    read '.'.toUInt8 (fs ++ rest) = .ok (.number ('.'.toUInt8 :: fs)) := by
  have hpoint : Bytes.isDigit '.'.toUInt8 = false := by decide
  have hfraction : (fs ++ rest).takeWhile Bytes.isDigit = fs := takeWhile_append_of_all hfs hrest
  simp [read, hpoint, hfraction, hne]

/-- The first byte of an identifier begins no number. -/
theorem head_isIdentifier {b : UInt8} {s : Bytes} (h : Bytes.IsIdentifier (b :: s)) :
    Bytes.isDigit b = false ∧ b ≠ '.'.toUInt8 := by
  obtain ⟨c, cs, hs, hc, -⟩ := h
  have hb : b ∈ String.utf8EncodeChar c := by
    obtain ⟨x, t, hx⟩ := List.exists_cons_of_ne_nil (String.utf8EncodeChar_ne_nil (c := c))
    rw [Bytes.ofChars_cons, hx, List.cons_append] at hs
    rw [hx, (List.cons.inj hs).1]
    exact List.mem_cons_self
  refine ⟨?_, ?_⟩
  · by_contra hd
    have hmem := mem_digitBytes (by simpa using hd)
    have hlt := (by decide : ∀ b ∈ digitBytes, b < 0x80) b hmem
    have hno := (by decide : ∀ b ∈ digitBytes,
      isIdentifierStart (Char.ofNat b.toNat) = false) b hmem
    rw [← Bytes.eq_ofNat_of_mem_encode hb hlt, hc] at hno
    cases hno
  · rintro rfl
    rw [Bytes.eq_ofNat_of_mem_encode hb (by decide)] at hc
    exact absurd hc (by decide)

/-- An identifier goes as far as it can. -/
theorem read_name {b : UInt8} {s rest : Bytes} (h : Bytes.IsIdentifier (b :: s))
    (hrest : rest.Stops isIdentifierPart) : read b (s ++ rest) = .ok (.name (b :: s)) := by
  obtain ⟨hdigit, hpoint⟩ := head_isIdentifier h
  have hname : Bytes.identifier (b :: (s ++ rest)) = b :: s :=
    Bytes.word_append isIdentifierPart_of_isIdentifierStart h hrest
  simp [read, hdigit, hpoint, hname]

/-- A character that begins no number and no name is a lexeme of its own. -/
theorem read_mark {c : Char} (hc : c.toNat < 0x80) (hpoint : c.toUInt8 ≠ '.'.toUInt8)
    (hdigit : Bytes.isDigit c.toUInt8 = false) (hstart : isIdentifierStart c = false) {l : Lexeme}
    (hl : ofChar? c = some l) (rest : Bytes) : read c.toUInt8 rest = .ok l := by
  have hcode := Bytes.glyph?_encode_append c rest
  rw [Bytes.encode_ascii hc, List.singleton_append] at hcode
  have hname : Bytes.identifier (c.toUInt8 :: rest) = [] := by
    rw [Bytes.identifier, Bytes.word, hcode]
    simp [hstart]
  simp [read, hdigit, hpoint, hname, hcode, hl]

/-- A lexeme that stands before a text is read off its front. -/
theorem read_of_stands {l : Lexeme} {b : UInt8} {s rest : Bytes} (h : l.Stands rest)
    (hs : b :: s = l.text ++ rest) : read b s = .ok l := by
  cases h with
  | @whole ds _ hne hds hrest =>
    obtain ⟨d, ds, rfl⟩ := List.exists_cons_of_ne_nil hne
    obtain ⟨rfl, rfl⟩ := List.cons.inj hs
    exact read_whole hds hrest
  | @decimal ds fs _ hds hne hfs hrest =>
    cases ds with
    | nil =>
      obtain ⟨rfl, rfl⟩ := List.cons.inj hs
      exact read_fraction hne hfs hrest
    | cons d ds =>
      rw [text, List.append_assoc, List.cons_append, List.cons_append] at hs
      obtain ⟨rfl, rfl⟩ := List.cons.inj hs
      exact read_decimal hds hne hfs hrest
  | @name t _ ht hrest =>
    obtain ⟨x, t, rfl⟩ := List.exists_cons_of_ne_nil (Bytes.IsWord.ne_nil ht)
    obtain ⟨rfl, rfl⟩ := List.cons.inj hs
    exact read_name ht hrest
  | @operator op _ hop =>
    cases op with
    | add =>
      obtain ⟨rfl, rfl⟩ := List.cons.inj hs
      exact read_mark (c := '+') (by decide) (by decide) (by decide) (by decide) rfl _
    | sub =>
      obtain ⟨rfl, rfl⟩ := List.cons.inj hs
      exact read_mark (c := '-') (by decide) (by decide) (by decide) (by decide) rfl _
    | mul =>
      obtain ⟨rfl, rfl⟩ := List.cons.inj hs
      exact read_mark (c := '*') (by decide) (by decide) (by decide) (by decide) rfl _
    | div =>
      obtain ⟨rfl, rfl⟩ := List.cons.inj hs
      exact read_mark (c := '/') (by decide) (by decide) (by decide) (by decide) rfl _
    | other => cases hop
  | leftParen =>
    obtain ⟨rfl, rfl⟩ := List.cons.inj hs
    exact read_mark (c := '(') (by decide) (by decide) (by decide) (by decide) rfl _
  | rightParen =>
    obtain ⟨rfl, rfl⟩ := List.cons.inj hs
    exact read_mark (c := ')') (by decide) (by decide) (by decide) (by decide) rfl _

theorem stands_of_readNumber {d : UInt8} {s : Bytes} {l : Lexeme} (hd : Bytes.isDigit d = true)
    (h : readNumber d s = .ok l) : ∃ rest, d :: s = l.text ++ rest ∧ l.Stands rest := by
  have hds : ∀ b ∈ d :: s.takeWhile Bytes.isDigit, Bytes.isDigit b = true :=
    List.forall_mem_cons.mpr ⟨hd, fun b hb => List.mem_takeWhile_imp hb⟩
  have hsplit := List.takeWhile_append_dropWhile (p := Bytes.isDigit) (l := s)
  have hhead : ∀ b ∈ (s.dropWhile Bytes.isDigit).head?, Bytes.isDigit b = false := head?_dropWhile
  simp only [readNumber] at h
  generalize s.takeWhile Bytes.isDigit = ds at hds hsplit h
  cases hr : s.dropWhile Bytes.isDigit with
  | nil =>
    simp only [hr] at h
    obtain rfl := Except.ok.inj h
    rw [hr, List.append_nil] at hsplit
    exact ⟨[], by rw [text, List.append_nil, hsplit], .whole (by simp) hds (by simp)⟩
  | cons b behind =>
    simp only [hr] at h hsplit hhead
    split at h
    · next hb =>
      obtain rfl := beq_iff_eq.mp hb
      split at h
      · cases h
      · next hne =>
        obtain rfl := Except.ok.inj h
        refine ⟨behind.dropWhile Bytes.isDigit, ?_, .decimal hds (mt List.isEmpty_iff.mpr hne)
          (fun b hb => List.mem_takeWhile_imp hb) head?_dropWhile⟩
        rw [text, List.append_assoc, List.cons_append, List.cons_append,
          List.takeWhile_append_dropWhile, hsplit]
    · next hb =>
      obtain rfl := Except.ok.inj h
      refine ⟨b :: behind, by rw [text, List.cons_append, hsplit], .whole (by simp) hds ?_⟩
      intro x hx
      obtain rfl : b = x := by simpa using hx
      exact ⟨hhead b rfl, by simpa using hb⟩

theorem stands_of_ofChar? {c : Char} {l : Lexeme} (h : ofChar? c = some l) (rest : Bytes) :
    l.text = String.utf8EncodeChar c ∧ l.Stands rest := by
  unfold ofChar? at h
  split at h <;> cases h
  · exact ⟨by decide, .operator rfl⟩
  · exact ⟨by decide, .operator rfl⟩
  · exact ⟨by decide, .operator rfl⟩
  · exact ⟨by decide, .operator rfl⟩
  · exact ⟨by decide, .leftParen⟩
  · exact ⟨by decide, .rightParen⟩

/-- What is read stands at the beginning of the text. -/
theorem stands_of_read {b : UInt8} {s : Bytes} {l : Lexeme} (h : read b s = .ok l) :
    ∃ rest, b :: s = l.text ++ rest ∧ l.Stands rest := by
  simp only [read] at h
  split at h
  · next hd => exact stands_of_readNumber hd h
  · split at h
    · next hp =>
      obtain ⟨hb, hne⟩ := (Bool.and_eq_true _ _).mp hp
      obtain rfl := beq_iff_eq.mp hb
      obtain rfl := Except.ok.inj h
      have hfs : ∀ b ∈ s.takeWhile Bytes.isDigit, Bytes.isDigit b = true :=
        fun b hb => List.mem_takeWhile_imp hb
      refine ⟨s.dropWhile Bytes.isDigit, ?_, ?_⟩
      · rw [text, List.cons_append, List.takeWhile_append_dropWhile]
      · have hnil : ∀ b ∈ ([] : Bytes), Bytes.isDigit b = true := by simp
        exact .decimal hnil (by simpa using hne) hfs head?_dropWhile
    · split at h
      · next hname =>
        obtain rfl := Except.ok.inj h
        have hne : Bytes.identifier (b :: s) ≠ [] := by simpa using hname
        obtain ⟨hw, rest, hrest, hstop⟩ :=
          Bytes.isWord_of_word isIdentifierPart_of_isIdentifierStart hne
        exact ⟨rest, hrest, .name hw hstop⟩
      · split at h
        · next c rest hg =>
          split at h
          · next l' hl =>
            obtain rfl := Except.ok.inj h
            obtain ⟨htext, hstands⟩ := stands_of_ofChar? hl rest
            exact ⟨rest, by rw [htext]; exact Bytes.eq_encode_append_of_glyph? hg, hstands⟩
          · cases h
        · cases h

/-- What stands before some text stands at the end as well. -/
theorem Stands.nil {l : Lexeme} {rest : Bytes} (h : l.Stands rest) : l.Stands [] := by
  cases h with
  | whole hne hds => exact .whole hne hds (by simp)
  | decimal hds hne hfs => exact .decimal hds hne hfs (by simp)
  | name hs => exact .name hs (Bytes.stops_nil _)
  | operator hop => exact .operator hop
  | leftParen => exact .leftParen
  | rightParen => exact .rightParen

/-- No lexeme has a blank in it. -/
theorem Stands.not_blank {l : Lexeme} {rest : Bytes} (h : l.Stands rest) :
    ∀ b ∈ l.text, Bytes.isBlank b = false := by
  have hdigit : ∀ b, Bytes.isDigit b = true → Bytes.isBlank b = false := fun b hb =>
    (by decide : ∀ b ∈ digitBytes, Bytes.isBlank b = false) b (mem_digitBytes hb)
  cases h with
  | whole _ hds => exact fun b hb => hdigit b (hds b hb)
  | decimal hds _ hfs =>
    intro b hb
    rcases List.mem_append.mp hb with hb | hb
    · exact hdigit b (hds b hb)
    · rcases List.mem_cons.mp hb with rfl | hb
      · decide
      · exact hdigit b (hfs b hb)
  | name hs =>
    intro b hb
    by_contra hblank
    rw [Bool.not_eq_false] at hblank
    have hpart := Bytes.IsWord.part_of_mem isIdentifierPart_of_isIdentifierStart hs hb
      (Bytes.lt_of_isBlank hblank)
    simp only [Bytes.isBlank, Bool.or_eq_true, beq_iff_eq] at hblank
    rcases hblank with (((rfl | rfl) | rfl) | rfl) | rfl <;> exact absurd hpart (by decide)
  | @operator op _ hop =>
    cases op with
    | other => cases hop
    | _ => decide
  | leftParen => decide
  | rightParen => decide

/-- No lexeme is empty. -/
theorem Stands.text_ne_nil {l : Lexeme} {rest : Bytes} (h : l.Stands rest) : l.text ≠ [] := by
  cases h with
  | whole hne => exact hne
  | decimal => simp [text]
  | name hs => exact Bytes.IsWord.ne_nil hs
  | @operator op _ hop =>
    cases op with
    | other => cases hop
    | _ => decide
  | leftParen => decide
  | rightParen => decide

end Lexeme

/-! ## Sequences of lexemes -/

/-- The text consists of the lexemes, with gaps before, between and behind them. -/
inductive Lexes : Bytes → List Lexeme → Prop
  | nil {w : Bytes} (hw : ∀ b ∈ w, Scan.isGap b = true) : Lexes w []
  | cons {w rest : Bytes} {l : Lexeme} {ls : List Lexeme} (hw : ∀ b ∈ w, Scan.isGap b = true)
      (hl : l.Stands rest) (hls : Lexes rest ls) : Lexes (w ++ (l.text ++ rest)) (l :: ls)

namespace Scan

theorem scanFrom_of_nil {c : Cursor} (h : (c.skipWhile isGap).rest = []) :
    scanFrom c = ⟨[], .complete (c.skipWhile isGap).pos⟩ := by
  rw [scanFrom]
  split
  · rfl
  · next h' => rw [h] at h'; cases h'

theorem scanFrom_of_ok {c : Cursor} {b : UInt8} {s : Bytes} {l : Lexeme}
    (h : (c.skipWhile isGap).rest = b :: s) (hl : Lexeme.read b s = .ok l) :
    scanFrom c = ⟨⟨l, (c.skipWhile isGap).pos⟩ ::
      (scanFrom ((c.skipWhile isGap).skip l.text.length)).lexemes,
      (scanFrom ((c.skipWhile isGap).skip l.text.length)).ending⟩ := by
  rw [scanFrom]
  split
  · next h' => rw [h] at h'; cases h'
  · next h' =>
    rw [h] at h'
    cases h'
    split
    · next hl' => rw [hl] at hl'; cases hl'
    · next hl' => rw [hl] at hl'; cases hl'; rfl

theorem scanFrom_of_error {c : Cursor} {b : UInt8} {s : Bytes} {f : SyntaxFault}
    (h : (c.skipWhile isGap).rest = b :: s) (hl : Lexeme.read b s = .error f) :
    scanFrom c = ⟨[], .broken ⟨(c.skipWhile isGap).pos, f⟩⟩ := by
  rw [scanFrom]
  split
  · next h' => rw [h] at h'; cases h'
  · next h' =>
    rw [h] at h'
    cases h'
    split
    · next hl' => rw [hl] at hl'; cases hl'; rfl
    · next hl' => rw [hl] at hl'; cases hl'

/-- **Induction along a text**: behind some gaps the text ends, or something is no lexeme, or a
lexeme stands there and scanning goes on behind it. -/
theorem scanFrom_induction {motive : Cursor → Scan → Prop}
    (complete : ∀ pos w, (∀ b ∈ w, isGap b = true) →
      motive ⟨pos, w⟩ ⟨[], .complete (pos + w.length)⟩)
    (broken : ∀ pos w b s f, (∀ b ∈ w, isGap b = true) → Lexeme.read b s = .error f →
      motive ⟨pos, w ++ b :: s⟩ ⟨[], .broken ⟨pos + w.length, f⟩⟩)
    (cons : ∀ pos w l rest, (∀ b ∈ w, isGap b = true) → l.Stands rest →
      motive ⟨pos + w.length + l.text.length, rest⟩
        (scanFrom ⟨pos + w.length + l.text.length, rest⟩) →
      motive ⟨pos, w ++ (l.text ++ rest)⟩
        ⟨⟨l, pos + w.length⟩ :: (scanFrom ⟨pos + w.length + l.text.length, rest⟩).lexemes,
          (scanFrom ⟨pos + w.length + l.text.length, rest⟩).ending⟩)
    (c : Cursor) : motive c (scanFrom c) := by
  obtain ⟨pos, text⟩ := c
  obtain ⟨w, r, hrest, hw, hskip⟩ := Cursor.exists_of_skipWhile ⟨pos, text⟩ isGap
  rcases r with _ | ⟨b, s⟩
  · obtain rfl : text = w := by simpa using hrest
    rw [scanFrom_of_nil (by rw [hskip]), hskip]
    exact complete pos text hw
  · rcases hl : Lexeme.read b s with f | l
    · obtain rfl : text = w ++ b :: s := hrest
      rw [scanFrom_of_error (by rw [hskip]) hl, hskip]
      exact broken pos w b s f hw hl
    · obtain ⟨rest, hs, hstands⟩ := Lexeme.stands_of_read hl
      have htext : text = w ++ (l.text ++ rest) := by
        rw [← hs]
        exact hrest
      have hlt : rest.length < text.length := by
        have hpos := List.length_pos_iff.mpr hstands.text_ne_nil
        rw [htext, List.length_append, List.length_append]
        omega
      have ih := scanFrom_induction complete broken cons ⟨pos + w.length + l.text.length, rest⟩
      rw [scanFrom_of_ok (by rw [hskip]) hl, hskip, hs, Cursor.skip_append, htext]
      exact cons pos w l rest hw hstands ih
termination_by c.rest.length

/-- Scanning a text that consists of lexemes gives these lexemes. -/
theorem complete_of_lexes {s : Bytes} {ls : List Lexeme} (h : Lexes s ls) :
    ∀ pos, (scanFrom ⟨pos, s⟩).lexemes.map (·.lexeme) = ls ∧
      ∃ n, (scanFrom ⟨pos, s⟩).ending = .complete n := by
  induction h with
  | @nil w hw =>
    intro pos
    have hskip := Cursor.skipWhile_append (r := []) pos hw (by simp)
    rw [List.append_nil] at hskip
    rw [scanFrom_of_nil (by rw [hskip])]
    exact ⟨rfl, _, rfl⟩
  | @cons w rest l ls hw hl _ ih =>
    intro pos
    obtain ⟨b, s, hs⟩ := List.exists_cons_of_ne_nil hl.text_ne_nil
    have hgap : isGap b = false := by
      by_contra hb
      have := hl.not_blank b (hs ▸ List.mem_cons_self)
      rw [isBlank_of_isGap (by simpa using hb)] at this
      cases this
    have hskip : (⟨pos, w ++ (l.text ++ rest)⟩ : Cursor).skipWhile isGap
        = ⟨pos + w.length, l.text ++ rest⟩ :=
      Cursor.skipWhile_append pos hw (by rw [hs]; simpa using hgap)
    have hread : Lexeme.read b (s ++ rest) = .ok l := Lexeme.read_of_stands hl (by rw [hs]; rfl)
    obtain ⟨hlexemes, hending⟩ := ih (pos + w.length + l.text.length)
    rw [scanFrom_of_ok (by rw [hskip, hs]; rfl) hread, hskip, Cursor.skip_append]
    exact ⟨by rw [List.map_cons, hlexemes], hending⟩

/-- …and a text that is scanned to its end consists of lexemes. -/
theorem lexes_of_complete (c : Cursor) : ∀ {n : Nat}, (scanFrom c).ending = .complete n →
    Lexes c.rest ((scanFrom c).lexemes.map (·.lexeme)) := by
  induction c using scanFrom_induction with
  | complete pos w hw => exact fun _ => .nil hw
  | broken => exact nofun
  | cons pos w l rest hw hl ih => exact fun h => .cons hw hl (ih h)

/-- **A text is scanned to its end exactly if it consists of lexemes**, and then these are the ones
that come out. -/
theorem complete_iff {s : Bytes} {ls : List Lexeme} :
    (ofText s).lexemes.map (·.lexeme) = ls ∧ (∃ n, (ofText s).ending = .complete n) ↔
      Lexes s ls := by
  constructor
  · rintro ⟨rfl, n, hn⟩
    exact lexes_of_complete (.start s) hn
  · intro h
    exact complete_of_lexes h 0

end Scan

end LayoutMarkup

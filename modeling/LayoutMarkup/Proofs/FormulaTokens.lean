import LayoutMarkup.Formula.Term
import LayoutMarkup.Proofs.Spelling
import Mathlib.Data.List.Chain

/-!
# Proofs/FormulaTokens — the lexemes of an expression as tokens of a formula

Expressions and formulas have tokens of their own.  Where lexemes follow each other as they do in an
expression, a formula has the tokens of each of them, one after the other (`tokens?_lexes`): a
number is one token (`number_tokens`), and a dotted name is words with points between them
(`ReadsName`).  Only a name with a digit behind a point is read in another way, and then a number
follows a word (`plain_of_seemly`).
-/

namespace LayoutMarkup

/-! ## Texts as characters -/

/-- The characters of a text. -/
def Bytes.shown (s : Bytes) : List Char := s.glyphs.map Glyph.shown

namespace Bytes

@[simp] theorem shown_nil : shown [] = [] := by
  rw [shown, glyphs]
  rfl

theorem shown_encode_append (c : Char) (s : Bytes) :
    shown (String.utf8EncodeChar c ++ s) = c :: shown s := by
  have hg := glyph?_encode_append c s
  rw [shown, glyphs]
  split
  · next h => rw [hg] at h; cases h
  · next h => rw [hg] at h; cases h; rfl

/-- Characters that stand at the beginning are shown as they are. -/
theorem shown_ofChars_append (cs : List Char) (s : Bytes) :
    shown (ofChars cs ++ s) = cs ++ shown s := by
  induction cs with
  | nil => rfl
  | cons c cs ih => rw [ofChars_cons, List.append_assoc, shown_encode_append, ih, List.cons_append]

theorem shown_ofChars (cs : List Char) : shown (ofChars cs) = cs := by
  have := shown_ofChars_append cs []
  rwa [List.append_nil, shown_nil, List.append_nil] at this

/-- An ASCII byte is shown as the character with its number. -/
theorem shown_cons {b : UInt8} (h : b < 0x80) (s : Bytes) :
    shown (b :: s) = Char.ofNat b.toNat :: shown s := by
  have := shown_encode_append (Char.ofNat b.toNat) s
  rwa [encode_byte h] at this

theorem shown_append_of_ascii {t : Bytes} (h : ∀ b ∈ t, b < 0x80) (s : Bytes) :
    shown (t ++ s) = t.map (fun b => Char.ofNat b.toNat) ++ shown s := by
  induction t with
  | nil => rfl
  | cons b t ih =>
    obtain ⟨hb, ht⟩ := List.forall_mem_cons.mp h
    rw [List.cons_append, shown_cons hb, ih ht, List.map_cons, List.cons_append]

theorem shown_of_ascii {t : Bytes} (h : ∀ b ∈ t, b < 0x80) :
    shown t = t.map (fun b => Char.ofNat b.toNat) := by
  have := shown_append_of_ascii h []
  rwa [List.append_nil, shown_nil, List.append_nil] at this

/-- Something is shown of a text that is not empty. -/
theorem shown_ne_nil {s : Bytes} (h : s ≠ []) : shown s ≠ [] := by
  rw [shown, glyphs]
  split
  · next hg => exact absurd (glyph?_eq_none hg) h
  · exact List.cons_ne_nil _ _

end Bytes

namespace Formula

/-! ## Pieces -/

theorem tokens?_nil : tokens? [] = some [] := by
  rw [tokens?.eq_def]

/-- A text has no tokens if it begins with something that is no piece. -/
theorem tokens?_of_none {c : Char} {s : List Char} (h : piece? c s = none) :
    tokens? (c :: s) = none := by
  rw [tokens?.eq_def]
  simp only
  split
  · rfl
  · next h' => rw [h] at h'; cases h'
  · next h' => rw [h] at h'; cases h'

/-- Gaps leave no token. -/
theorem tokens?_of_gap {c : Char} {s rest : List Char} (h : piece? c s = some (.gap, rest)) :
    tokens? (c :: s) = tokens? rest := by
  rw [tokens?.eq_def]
  simp only
  split
  · next h' => rw [h] at h'; cases h'
  · next h' => rw [h] at h'; cases h'; rfl
  · next h' => rw [h] at h'; cases h'

/-- The first token, and those of what follows it. -/
theorem tokens?_of_token {c : Char} {s rest : List Char} {t : Token}
    (h : piece? c s = some (.token t, rest)) : tokens? (c :: s) = (tokens? rest).map (t :: ·) := by
  rw [tokens?.eq_def]
  simp only
  split
  · next h' => rw [h] at h'; cases h'
  · next h' => rw [h] at h'; cases h'
  · next h' => rw [h] at h'; cases h'; rfl

/-! ## Characters -/

/-- The digits of ASCII. -/
def digitChars : List Char := ['0', '1', '2', '3', '4', '5', '6', '7', '8', '9']

theorem mem_digitChars {c : Char} (h : c.isDigit = true) : c ∈ digitChars := by
  simp only [Char.isDigit, Bool.and_eq_true, decide_eq_true_eq, ge_iff_le,
    UInt32.le_iff_toNat_le] at h
  have hlo : 48 ≤ c.toNat := h.1
  have hhi : c.toNat ≤ 57 := h.2
  rw [← Char.ofNat_toNat c]
  generalize c.toNat = n at hlo hhi ⊢
  interval_cases n <;> decide

/-- The white space of Unicode. -/
def spaceChars : List Char :=
  [0x09, 0x0A, 0x0B, 0x0C, 0x0D, 0x20, 0x85, 0xA0, 0x1680, 0x2000, 0x2001, 0x2002, 0x2003, 0x2004,
    0x2005, 0x2006, 0x2007, 0x2008, 0x2009, 0x200A, 0x2028, 0x2029, 0x202F, 0x205F,
    0x3000].map Char.ofNat

theorem mem_spaceChars {c : Char} (h : isSpace c = true) : c ∈ spaceChars := by
  refine List.mem_map.mpr ⟨c.toNat, ?_, Char.ofNat_toNat c⟩
  simp only [isSpace, Bool.or_eq_true, Bool.and_eq_true, decide_eq_true_eq, beq_iff_eq] at h
  generalize c.toNat = n at h
  simp only [List.mem_cons, List.not_mem_nil, or_false]
  omega

/-- White space ends a word. -/
theorem isWordPart_of_isSpace {c : Char} (h : isSpace c = true) : isWordPart c = false :=
  (by decide +kernel : ∀ c ∈ spaceChars, isWordPart c = false) c (mem_spaceChars h)

/-- Digits are parts of words. -/
theorem isWordPart_of_isDigit {c : Char} (h : c.isDigit = true) : isWordPart c = true :=
  (by decide +kernel : ∀ c ∈ digitChars, isWordPart c = true) c (mem_digitChars h)

theorem isDigit_of_digitValue {c : Char} (h : digitValue c < 10) : c.isDigit = true := by
  unfold digitValue at h
  split at h
  · assumption
  · split at h
    · omega
    · split at h <;> omega

/-! ## Numbers -/

/-- The text goes on with nothing that a number or a word could contain. -/
def Breaks (s : List Char) : Prop := ∀ c ∈ s.head?, isWordPart c = false ∧ c ≠ '.'

theorem Breaks.isDigit {s : List Char} (h : Breaks s) : ∀ c ∈ s.head?, c.isDigit = false := by
  intro c hc
  by_contra hd
  have := isWordPart_of_isDigit (by simpa using hd)
  rw [(h c hc).1] at this
  cases this

/-- Digits go as far as they can, if no underscore joins further ones. -/
theorem digitRun_append {x y : List Char} (hx : ∀ c ∈ x, c.isDigit = true)
    (hy : ∀ c ∈ y.head?, c.isDigit = false ∧ c ≠ '_') : digitRun 10 (x ++ y) = (x, y) := by
  have hpart : ∀ c ∈ x, (c == '_' || decide (digitValue c < 10)) = true := fun c hc =>
    (by decide : ∀ c ∈ digitChars, (c == '_' || decide (digitValue c < 10)) = true) c
      (mem_digitChars (hx c hc))
  have hstop : ∀ c ∈ y.head?, (c == '_' || decide (digitValue c < 10)) = false := by
    intro c hc
    obtain ⟨hdigit, hbar⟩ := hy c hc
    have hvalue : ¬ digitValue c < 10 := fun h => by
      rw [isDigit_of_digitValue h] at hdigit
      cases hdigit
    simp [hbar, hvalue]
  have hfilter : x.filter (· != '_') = x := List.filter_eq_self.mpr fun c hc =>
    (by decide : ∀ c ∈ digitChars, (c != '_') = true) c (mem_digitChars (hx c hc))
  rw [digitRun, takeWhile_append_of_all hpart hstop, dropWhile_append_of_all hpart hstop, hfilter]

/-- Digits end where a token has to end. -/
theorem Breaks.digitRun {x y : List Char} (hx : ∀ c ∈ x, c.isDigit = true) (hy : Breaks y) :
    digitRun 10 (x ++ y) = (x, y) := by
  refine digitRun_append hx fun c hc => ⟨hy.isDigit c hc, ?_⟩
  rintro rfl
  exact absurd (hy _ hc).1 (by decide)

/-- No exponent follows where a token has to end. -/
theorem Breaks.decimal? {y : List Char} (hy : Breaks y) (whole : List Char)
    (fraction : Option (List Char)) :
    decimal? whole fraction y = (decimalValue? whole fraction none).map (·, y) := by
  have hexponent : exponent? y = some (none, y) := by
    cases y with
    | nil => rfl
    | cons c y =>
      have hc := (hy c rfl).1
      have he : c ≠ 'e' := by rintro rfl; exact absurd hc (by decide)
      have hE : c ≠ 'E' := by rintro rfl; exact absurd hc (by decide)
      simp [exponent?, he, hE]
  have hword : y.head?.any isWordPart = false := by
    cases y with
    | nil => rfl
    | cons c y => exact (hy c rfl).1
  rw [Formula.decimal?, hexponent]
  simp [hword]

/-- A text that begins with a digit is read as a decimal number, unless a letter that announces
another base comes next. -/
theorem number?_digit {d : Char} {s : List Char} (hd : d.isDigit = true)
    (hs : ∀ c ∈ s.head?, c ∉ ['x', 'X', 'o', 'O', 'b', 'B']) :
    number? (d :: s) = (if (digitRun 10 (d :: s)).1.isEmpty then none
      else match (digitRun 10 (d :: s)).2 with
        | '.' :: rest =>
          if rest.head? == some '.' then none
          else decimal? (digitRun 10 (d :: s)).1 (some (digitRun 10 rest).1) (digitRun 10 rest).2
        | rest => decimal? (digitRun 10 (d :: s)).1 none rest) := by
  generalize ht : d :: s = t
  unfold number?
  split
  · cases ht; exact absurd (hs _ rfl) (by decide)
  · cases ht; exact absurd (hs _ rfl) (by decide)
  · cases ht; exact absurd (hs _ rfl) (by decide)
  · cases ht; exact absurd (hs _ rfl) (by decide)
  · cases ht; exact absurd (hs _ rfl) (by decide)
  · cases ht; exact absurd (hs _ rfl) (by decide)
  · cases ht; exact absurd hd (by decide)
  · rfl

/-- Digits without a point are read as a whole number. -/
theorem number?_whole {x y : List Char} (hne : x ≠ []) (hx : ∀ c ∈ x, c.isDigit = true)
    (hy : Breaks y) : number? (x ++ y) = (decimalValue? x none none).map (·, y) := by
  obtain ⟨d, x, rfl⟩ := List.exists_cons_of_ne_nil hne
  obtain ⟨hd, hx'⟩ := List.forall_mem_cons.mp hx
  have hbase : ∀ c ∈ (x ++ y).head?, c ∉ ['x', 'X', 'o', 'O', 'b', 'B'] := by
    intro c hc hmem
    have hletter := (by decide : ∀ c ∈ ['x', 'X', 'o', 'O', 'b', 'B'],
      isWordPart c = true ∧ c.isDigit = false) c hmem
    cases x with
    | nil =>
      have := (hy c hc).1
      rw [hletter.1] at this
      cases this
    | cons e x =>
      obtain rfl : e = c := by simpa using hc
      have := hx' e List.mem_cons_self
      rw [hletter.2] at this
      cases this
  have hrun := hy.digitRun hx
  rw [List.cons_append] at hrun ⊢
  rw [number?_digit hd hbase, hrun]
  simp only [List.isEmpty_cons, Bool.false_eq_true, if_false]
  split
  · next h => exact absurd rfl (hy _ (by simp)).2
  · exact hy.decimal? _ _

/-- Digits with a point between them are read as one number. -/
theorem number?_decimal {x z y : List Char} (hx : ∀ c ∈ x, c.isDigit = true) (hxne : x ≠ [])
    (hz : ∀ c ∈ z, c.isDigit = true) (hzne : z ≠ []) (hy : Breaks y) :
    number? (x ++ '.' :: (z ++ y)) = (decimalValue? x (some z) none).map (·, y) := by
  obtain ⟨d, x, rfl⟩ := List.exists_cons_of_ne_nil hxne
  obtain ⟨hd, hx'⟩ := List.forall_mem_cons.mp hx
  have hbase : ∀ c ∈ (x ++ '.' :: (z ++ y)).head?, c ∉ ['x', 'X', 'o', 'O', 'b', 'B'] := by
    intro c hc hmem
    cases x with
    | nil =>
      obtain rfl : '.' = c := by simpa using hc
      exact absurd hmem (by decide)
    | cons e x =>
      obtain rfl : e = c := by simpa using hc
      have := hx' e List.mem_cons_self
      rw [(by decide : ∀ c ∈ ['x', 'X', 'o', 'O', 'b', 'B'], c.isDigit = false) e hmem] at this
      cases this
  have hrun : digitRun 10 (d :: x ++ '.' :: (z ++ y)) = (d :: x, '.' :: (z ++ y)) :=
    digitRun_append hx (by simp)
  have hpoint : ((z ++ y).head? == some '.') = false := by
    obtain ⟨e, z, rfl⟩ := List.exists_cons_of_ne_nil hzne
    have he := hz e List.mem_cons_self
    have : e ≠ '.' := by rintro rfl; exact absurd he (by decide)
    simpa using this
  rw [List.cons_append] at hrun ⊢
  rw [number?_digit hd hbase, hrun]
  simp only [List.isEmpty_cons, Bool.false_eq_true, if_false, hpoint, hy.digitRun hz, hy.decimal?]

/-- A number may begin with its point. -/
theorem number?_fraction {z y : List Char} (hz : ∀ c ∈ z, c.isDigit = true) (hy : Breaks y) :
    number? ('.' :: (z ++ y)) = (decimalValue? [] (some z) none).map (·, y) := by
  have hpoint : (y.head? == some '.') = false := by
    cases y with
    | nil => rfl
    | cons c y => simpa using (hy c rfl).2
  unfold number?
  simp only [hy.digitRun hz, hpoint, Bool.false_eq_true, if_false, hy.decimal?]

/-! ## Lexemes -/

/-- The tokens of a text behind those of another. -/
def concat? (ts us : Option (List Token)) : Option (List Token) :=
  ts.bind fun ts => us.map (ts ++ ·)

/-- The text has its tokens wherever nothing follows that a number or a word could contain. -/
def Local (x : List Char) : Prop :=
  ∀ y, Breaks y → tokens? (x ++ y) = concat? (tokens? x) (tokens? y)

theorem breaks_nil : Breaks [] := by simp [Breaks]

/-- A text that is read as one number. -/
theorem local_of_number {x : List Char} {v : Option Number}
    (h : ∀ y, Breaks y → tokens? (x ++ y) = v.bind fun n => (tokens? y).map (.number n :: ·)) :
    Local x ∧ tokens? x = v.map ([.number ·]) := by
  have hx : tokens? x = v.map ([.number ·]) := by
    have := h [] breaks_nil
    rw [List.append_nil, tokens?_nil] at this
    rw [this]
    cases v <;> rfl
  refine ⟨fun y hy => ?_, hx⟩
  rw [h y hy, hx]
  cases v <;> rfl

/-- White space is a gap. -/
theorem piece?_space {c : Char} (hc : isSpace c = true) (s : List Char) :
    piece? c s = some (.gap, s) := by
  unfold piece?
  rw [if_pos hc]

/-- A number begins at a digit. -/
theorem piece?_digit {d : Char} (hd : d.isDigit = true) (s : List Char) :
    piece? d s = (number? (d :: s)).map fun (n, rest) => (.token (.number n), rest) := by
  have hspace : isSpace d = false :=
    (by decide : ∀ c ∈ digitChars, isSpace c = false) d (mem_digitChars hd)
  unfold piece?
  rw [if_neg (by rw [hspace]; exact Bool.false_ne_true), if_pos hd]

theorem piece?_point (s : List Char) : piece? '.' s = point? s := rfl

/-- A number begins at a point with a digit behind it. -/
theorem point?_digit {d : Char} (hd : d.isDigit = true) (s : List Char) :
    point? (d :: s)
      = (number? ('.' :: d :: s)).map fun (n, rest) => (.token (.number n), rest) := by
  have hne : d ≠ '.' := by rintro rfl; exact absurd hd (by decide)
  unfold point?
  split
  · next h => exact absurd (Option.some.inj h) hne
  · next h =>
    obtain rfl := Option.some.inj h
    rw [if_pos hd]
  · next h => cases h

/-- A point on its own is a token. -/
theorem point?_other {s : List Char} (hs : ∀ c ∈ s.head?, c ≠ '.' ∧ c.isDigit = false) :
    point? s = some (.token .dot, s) := by
  unfold point?
  split
  · next h => exact absurd rfl (hs _ h).1
  · next h => rw [if_neg (by rw [(hs _ h).2]; exact Bool.false_ne_true)]
  · rfl

/-- A word is read as far as it goes. -/
theorem piece?_word {c : Char} (hword : isWordPart c = true) (hdigit : c.isDigit = false)
    (s : List Char) :
    piece? c s
      = some (.token (.word (c :: s.takeWhile isWordPart)), s.dropWhile isWordPart) := by
  have hspace : isSpace c = false := by
    by_contra h
    rw [isWordPart_of_isSpace (by simpa using h)] at hword
    cases hword
  unfold piece?
  rw [if_neg (by rw [hspace]; exact Bool.false_ne_true),
    if_neg (by rw [hdigit]; exact Bool.false_ne_true), if_pos hword]

/-- A text that begins with a number has its token, if the number has a value. -/
theorem tokens?_of_number? {c : Char} {s y : List Char} {v : Option Number}
    (hpiece : piece? c s = (number? (c :: s)).map fun (n, rest) => (.token (.number n), rest))
    (h : number? (c :: s) = v.map (·, y)) :
    tokens? (c :: s) = v.bind fun n => (tokens? y).map (.number n :: ·) := by
  rw [h] at hpiece
  cases v with
  | none => exact tokens?_of_none hpiece
  | some n => exact tokens?_of_token hpiece

theorem isDigit_of_mem_chars {ds : Bytes} (h : ∀ b ∈ ds, Bytes.isDigit b = true) :
    ∀ c ∈ ds.map (fun b => Char.ofNat b.toNat), c.isDigit = true := by
  intro c hc
  obtain ⟨b, hb, rfl⟩ := List.mem_map.mp hc
  exact (by decide : ∀ b ∈ digitBytes, (Char.ofNat b.toNat).isDigit = true) b
    (mem_digitBytes (h b hb))

theorem ascii_digits {ds : Bytes} (h : ∀ b ∈ ds, Bytes.isDigit b = true) : ∀ b ∈ ds, b < 0x80 :=
  fun b hb => (by decide : ∀ b ∈ digitBytes, b < 0x80) b (mem_digitBytes (h b hb))

/-- Digits are read as a number. -/
theorem tokens?_whole {ds : Bytes} (hne : ds ≠ []) (hds : ∀ b ∈ ds, Bytes.isDigit b = true)
    {y : List Char} (hy : Breaks y) :
    tokens? (ds.shown ++ y) = (decimalValue? (ds.map fun b => Char.ofNat b.toNat) none none).bind
      fun n => (tokens? y).map (.number n :: ·) := by
  rw [Bytes.shown_of_ascii (ascii_digits hds)]
  have hx := isDigit_of_mem_chars hds
  have hxne : ds.map (fun b => Char.ofNat b.toNat) ≠ [] := by simpa using hne
  generalize ds.map (fun b => Char.ofNat b.toNat) = x at hx hxne
  have hnumber := number?_whole hxne hx hy
  obtain ⟨d, x, rfl⟩ := List.exists_cons_of_ne_nil hxne
  exact tokens?_of_number? (piece?_digit (hx d List.mem_cons_self) _) hnumber

/-- Digits behind a point are read as a number, with the digits before it. -/
theorem tokens?_decimal {ds fs : Bytes} (hds : ∀ b ∈ ds, Bytes.isDigit b = true) (hne : fs ≠ [])
    (hfs : ∀ b ∈ fs, Bytes.isDigit b = true) {y : List Char} (hy : Breaks y) :
    tokens? (Bytes.shown (ds ++ '.'.toUInt8 :: fs) ++ y)
      = (decimalValue? (ds.map fun b => Char.ofNat b.toNat)
          (some (fs.map fun b => Char.ofNat b.toNat)) none).bind
        fun n => (tokens? y).map (.number n :: ·) := by
  have hall : ∀ b ∈ ds ++ '.'.toUInt8 :: fs, b < 0x80 :=
    List.forall_mem_append.mpr ⟨ascii_digits hds,
      List.forall_mem_cons.mpr ⟨by decide, ascii_digits hfs⟩⟩
  have hpoint : Char.ofNat '.'.toUInt8.toNat = '.' := by decide
  rw [Bytes.shown_of_ascii hall, List.map_append, List.map_cons, hpoint]
  have hx := isDigit_of_mem_chars hds
  have hz := isDigit_of_mem_chars hfs
  have hzne : fs.map (fun b => Char.ofNat b.toNat) ≠ [] := by simpa using hne
  generalize ds.map (fun b => Char.ofNat b.toNat) = x at hx
  generalize fs.map (fun b => Char.ofNat b.toNat) = z at hz hzne
  rcases x with _ | ⟨d, x⟩
  · have hnumber := number?_fraction hz hy
    obtain ⟨d, z, rfl⟩ := List.exists_cons_of_ne_nil hzne
    exact tokens?_of_number?
      ((piece?_point _).trans (point?_digit (hz d List.mem_cons_self) _)) hnumber
  · rw [List.append_assoc]
    exact tokens?_of_number? (piece?_digit (hx d List.mem_cons_self) _)
      (number?_decimal hx (by simp) hz hzne hy)

/-- A number has a single token, whatever follows, if it has a value. -/
theorem number_tokens {t rest : Bytes} (h : (Lexeme.number t).Stands rest) :
    Local t.shown ∧ ∃ v : Option Number, tokens? t.shown = v.map ([.number ·]) := by
  cases h with
  | whole hne hds =>
    have hself := local_of_number fun y hy => tokens?_whole hne hds hy
    exact ⟨hself.1, _, hself.2⟩
  | decimal hds hne hfs =>
    have hself := local_of_number fun y hy => tokens?_decimal hds hne hfs hy
    exact ⟨hself.1, _, hself.2⟩

/-! ## Names -/

/-- What can follow the first word of a dotted name. -/
inductive NameTail : List Token → Prop
  | nil : NameTail []
  | point : NameTail [.dot]
  | member {w : List Char} {ts : List Token} (h : NameTail ts) :
      NameTail (.dot :: .word w :: ts)

/-- No number follows a word. -/
def Seemly (ts : List Token) : Prop :=
  ts.IsChain fun a b => ∀ w n, a = .word w → b ≠ .number n

theorem isWordPart_of_isIdentifierPart {c : Char} (h : isIdentifierPart c = true) (hc : c ≠ '.') :
    isWordPart c = true := by
  simp only [isIdentifierPart, isWordPart, Bool.or_eq_true, beq_iff_eq] at h ⊢
  tauto

/-- A word goes as far as it can. -/
theorem tokens?_word {d : Char} {w z : List Char} (hd : isWordPart d = true)
    (hdigit : d.isDigit = false) (hw : ∀ c ∈ w, isWordPart c = true)
    (hz : ∀ c ∈ z.head?, isWordPart c = false) :
    tokens? (d :: (w ++ z)) = (tokens? z).map (.word (d :: w) :: ·) := by
  have hpiece := piece?_word hd hdigit (w ++ z)
  rw [takeWhile_append_of_all hw hz, dropWhile_append_of_all hw hz] at hpiece
  exact tokens?_of_token hpiece

/-- Two points in a row are refused. -/
theorem tokens?_points (x : List Char) : tokens? ('.' :: '.' :: x) = none := tokens?_of_none rfl

/-- A point before a word is a token of its own. -/
theorem tokens?_point {d : Char} (hpoint : d ≠ '.') (hdigit : d.isDigit = false) (x : List Char) :
    tokens? ('.' :: d :: x) = (tokens? (d :: x)).map (.dot :: ·) := by
  have hother : ∀ c ∈ (d :: x).head?, c ≠ '.' ∧ c.isDigit = false := by simp [hpoint, hdigit]
  exact tokens?_of_token ((piece?_point _).trans (point?_other hother))

/-- A point and a digit begin a number. -/
theorem exists_number_of_point {d : Char} {x : List Char} {ts : List Token}
    (hdigit : d.isDigit = true) (h : tokens? ('.' :: d :: x) = some ts) :
    ∃ n us, ts = .number n :: us := by
  have hpiece := (piece?_point (d :: x)).trans (point?_digit hdigit x)
  cases hn : number? ('.' :: d :: x) with
  | none =>
    rw [hn] at hpiece
    rw [tokens?_of_none hpiece] at h
    cases h
  | some r =>
    rw [hn] at hpiece
    rw [tokens?_of_token hpiece] at h
    obtain ⟨us, -, rfl⟩ := Option.map_eq_some_iff.mp h
    exact ⟨_, us, rfl⟩

/-- The texts that a formula reads as the rest of a name behind a word. -/
def ReadsTail (x : List Char) : Prop :=
  Local x ∧ ∀ ts, tokens? x = some ts → NameTail ts

/-- The texts that a formula reads as a name. -/
def ReadsName (x : List Char) : Prop :=
  Local x ∧ ∀ ts, tokens? x = some ts → ∃ w us, ts = .word w :: us ∧ NameTail us

/-- A number comes out of the text, or stands behind a word in it. -/
def Clashes (x : List Char) : Prop :=
  ∀ y ts, tokens? (x ++ y) = some ts → (∃ n us, ts = .number n :: us) ∨ ¬ Seemly ts

/-- A token before a text that can be read on its own. -/
theorem Local.map {x y : List Char} {t : Token} (h : Local y)
    (hx : ∀ z, Breaks z → tokens? (x ++ z) = (tokens? (y ++ z)).map (t :: ·)) :
    Local x ∧ tokens? x = (tokens? y).map (t :: ·) := by
  have hself : tokens? x = (tokens? y).map (t :: ·) := by
    have := hx [] breaks_nil
    rwa [List.append_nil, List.append_nil] at this
  refine ⟨fun z hz => ?_, hself⟩
  rw [hx z hz, h z hz, hself]
  cases tokens? y <;> cases tokens? z <;> rfl

/-- What stands behind a word in a name begins with a point. -/
theorem behind_word {x : List Char} (hx : ∀ c ∈ x, isIdentifierPart c = true) :
    (∀ c ∈ x.dropWhile isWordPart, isIdentifierPart c = true) ∧
      ∀ c ∈ (x.dropWhile isWordPart).head?, c = '.' := by
  have hparts : ∀ c ∈ x.dropWhile isWordPart, isIdentifierPart c = true := fun c hc =>
    hx c ((List.dropWhile_suffix _).mem hc)
  refine ⟨hparts, fun c hc => ?_⟩
  by_contra hne
  have := head?_dropWhile c hc
  rw [isWordPart_of_isIdentifierPart (hparts c (List.mem_of_mem_head? hc)) hne] at this
  cases this

/-- A word with the rest of a name behind it. -/
theorem name_of_tail {d : Char} {x : List Char} (hd : isWordPart d = true)
    (hdigit : d.isDigit = false) (hx : ∀ c ∈ x, isIdentifierPart c = true)
    (htail : ReadsTail (x.dropWhile isWordPart) ∨ Clashes (x.dropWhile isWordPart)) :
    ReadsName (d :: x) ∨ ∀ y ts, tokens? (d :: x ++ y) = some ts → ¬ Seemly ts := by
  have hsplit := List.takeWhile_append_dropWhile (p := isWordPart) (l := x)
  have hw : ∀ c ∈ x.takeWhile isWordPart, isWordPart c = true :=
    fun c hc => List.mem_takeWhile_imp hc
  have hstop : ∀ c ∈ (x.dropWhile isWordPart).head?, isWordPart c = false := head?_dropWhile
  generalize x.takeWhile isWordPart = w at hsplit hw
  generalize x.dropWhile isWordPart = z at hsplit hstop htail
  subst hsplit
  rcases htail with ⟨hlocal, hnames⟩ | hclash
  · left
    obtain ⟨hname, hself⟩ := hlocal.map (x := d :: (w ++ z)) (t := .word (d :: w)) fun y hy => by
      rw [List.cons_append, List.append_assoc]
      refine tokens?_word hd hdigit hw ?_
      cases z with
      | nil => exact fun c hc => (hy c hc).1
      | cons e z => exact hstop
    refine ⟨hname, fun ts hts => ?_⟩
    rw [hself] at hts
    obtain ⟨us, hus, rfl⟩ := Option.map_eq_some_iff.mp hts
    exact ⟨_, us, rfl, hnames us hus⟩
  · right
    intro y ts hts hseemly
    have hzne : z ≠ [] := by
      rintro rfl
      rcases hclash [] [] tokens?_nil with ⟨n, us, h⟩ | h
      · cases h
      · exact h .nil
    have hz : ∀ c ∈ (z ++ y).head?, isWordPart c = false := by
      rwa [List.head?_append_of_ne_nil _ hzne]
    rw [List.cons_append, List.append_assoc, tokens?_word hd hdigit hw hz] at hts
    obtain ⟨us, hus, rfl⟩ := Option.map_eq_some_iff.mp hts
    rcases hclash y us hus with ⟨n, vs, rfl⟩ | h
    · exact (List.isChain_cons_cons.mp hseemly).1 _ n rfl rfl
    · exact h hseemly.of_cons

theorem local_nil : Local [] := by
  intro y _
  rw [List.nil_append, tokens?_nil]
  simp [concat?]

theorem readsTail_nil : ReadsTail [] := by
  refine ⟨local_nil, fun ts h => ?_⟩
  rw [tokens?_nil] at h
  cases h
  exact .nil

/-- A name may end with a point. -/
theorem readsTail_point : ReadsTail ['.'] := by
  have hpoint : ∀ y, Breaks y → tokens? (['.'] ++ y) = (tokens? ([] ++ y)).map (.dot :: ·) :=
    fun y hy => tokens?_of_token ((piece?_point y).trans
      (point?_other fun c hc => ⟨(hy c hc).2, hy.isDigit c hc⟩))
  obtain ⟨hlocal, hself⟩ := local_nil.map hpoint
  refine ⟨hlocal, fun ts h => ?_⟩
  rw [hself, tokens?_nil] at h
  cases h
  exact .point

/-- Two points in a row have no tokens, whatever follows. -/
theorem readsTail_points (x : List Char) : ReadsTail ('.' :: '.' :: x) := by
  refine ⟨fun y _ => ?_, fun ts h => ?_⟩
  · rw [List.cons_append, List.cons_append, tokens?_points, tokens?_points]
    rfl
  · rw [tokens?_points] at h
    cases h

/-- A point with a digit behind it begins a number. -/
theorem clashes_digit {d : Char} (hdigit : d.isDigit = true) (x : List Char) :
    Clashes ('.' :: d :: x) :=
  fun _ _ h => .inl (exists_number_of_point hdigit h)

/-- A point with a name behind it. -/
theorem tail_of_name {d : Char} {x : List Char} (hpoint : d ≠ '.') (hdigit : d.isDigit = false)
    (hname : ReadsName (d :: x) ∨ ∀ y ts, tokens? (d :: x ++ y) = some ts → ¬ Seemly ts) :
    ReadsTail ('.' :: d :: x) ∨ Clashes ('.' :: d :: x) := by
  have hdot : ∀ y, tokens? ('.' :: d :: x ++ y) = (tokens? (d :: x ++ y)).map (.dot :: ·) :=
    fun y => tokens?_point hpoint hdigit (x ++ y)
  rcases hname with ⟨hlocal, hnames⟩ | hclash
  · obtain ⟨hlocal, hself⟩ := hlocal.map fun y _ => hdot y
    refine .inl ⟨hlocal, fun ts h => ?_⟩
    rw [hself] at h
    obtain ⟨us, hus, rfl⟩ := Option.map_eq_some_iff.mp h
    obtain ⟨w, vs, rfl, hvs⟩ := hnames us hus
    exact .member hvs
  · right
    intro y ts h
    rw [hdot] at h
    obtain ⟨us, hus, rfl⟩ := Option.map_eq_some_iff.mp h
    exact .inr fun hseemly => hclash y us hus hseemly.of_cons

/-- The rest of a name behind a word: either its tokens are those of members, wherever nothing
follows that a word could contain, or else a number comes out of it. -/
theorem nameTail_cases (x : List Char) (hx : ∀ c ∈ x, isIdentifierPart c = true)
    (hhead : ∀ c ∈ x.head?, c = '.') : ReadsTail x ∨ Clashes x := by
  match x with
  | [] => exact .inl readsTail_nil
  | c :: [] =>
    obtain rfl := hhead c rfl
    exact .inl readsTail_point
  | c :: d :: x =>
    obtain rfl := hhead c rfl
    by_cases hpoint : d = '.'
    · subst hpoint
      exact .inl (readsTail_points x)
    by_cases hdigit : d.isDigit = true
    · exact .inr (clashes_digit hdigit x)
    · rw [Bool.not_eq_true] at hdigit
      have hword := isWordPart_of_isIdentifierPart (hx d (by simp)) hpoint
      have hx' : ∀ c ∈ x, isIdentifierPart c = true := fun c hc =>
        hx c (List.mem_cons_of_mem _ (List.mem_cons_of_mem _ hc))
      have hlt := (List.dropWhile_suffix (l := x) isWordPart).length_le
      obtain ⟨hparts, hpoint'⟩ := behind_word hx'
      have htail := nameTail_cases (x.dropWhile isWordPart) hparts hpoint'
      exact tail_of_name hpoint hdigit (name_of_tail hword hdigit hx' htail)
termination_by x.length

/-- **A name is read as words with points between them**, or else a number follows a word wherever
it stands. -/
theorem name_cases {t : Bytes} (h : t.IsIdentifier) :
    ReadsName t.shown ∨ ∀ y ts, tokens? (t.shown ++ y) = some ts → ¬ Seemly ts := by
  obtain ⟨c, cs, rfl, hc, hcs⟩ := h
  have hdigit : c.isDigit = false := by
    by_contra hd
    rw [(by decide +kernel : ∀ c ∈ digitChars, isIdentifierStart c = false) c
      (mem_digitChars (by simpa using hd))] at hc
    cases hc
  have hpoint : c ≠ '.' := by
    rintro rfl
    exact absurd hc (by decide)
  have hword := isWordPart_of_isIdentifierPart (isIdentifierPart_of_isIdentifierStart c hc) hpoint
  obtain ⟨hparts, hhead⟩ := behind_word hcs
  rw [Bytes.shown_ofChars]
  exact name_of_tail hword hdigit hcs (nameTail_cases _ hparts hhead)

/-! ## Sequences of lexemes -/

/-- The lexemes that are single marks. -/
def marks : List Lexeme :=
  [.operator .add, .operator .sub, .operator .mul, .operator .div, .leftParen, .rightParen]

theorem mem_marks {op : Operator} (h : op.isArithmetic = true) : .operator op ∈ marks := by
  cases op with
  | other => cases h
  | _ => decide

/-- The character of a mark. -/
def markChar : Lexeme → Char
  | .operator .add => '+'
  | .operator .sub => '-'
  | .operator .mul => '*'
  | .operator .div => '/'
  | .leftParen => '('
  | _ => ')'

/-- A mark is a single character. -/
theorem text_mark : ∀ l ∈ marks, l.text = [(markChar l).toUInt8] := by decide

theorem shown_mark_append {l : Lexeme} (hl : l ∈ marks) (s : Bytes) :
    (l.text ++ s).shown = markChar l :: s.shown := by
  have hascii := (by decide : ∀ l ∈ marks, (markChar l).toUInt8 < 0x80) l hl
  have hchar := (by decide : ∀ l ∈ marks,
    Char.ofNat (markChar l).toUInt8.toNat = markChar l) l hl
  rw [text_mark l hl, List.singleton_append, Bytes.shown_cons hascii, hchar]

theorem shown_mark {l : Lexeme} (hl : l ∈ marks) : l.text.shown = [markChar l] := by
  have := shown_mark_append hl []
  rwa [List.append_nil, Bytes.shown_nil] at this

theorem ascii_number {t rest : Bytes} (h : (Lexeme.number t).Stands rest) : ∀ b ∈ t, b < 0x80 :=
  fun b hb => (by decide : ∀ b ∈ Lexeme.numberBytes, b < 0x80) b (h.mem_numberBytes b hb)

/-- A lexeme is shown as it is, whatever follows. -/
theorem shown_text_append {l : Lexeme} (h : l.Stands []) (s : Bytes) :
    (l.text ++ s).shown = l.text.shown ++ s.shown := by
  have hmark (hl : l ∈ marks) : (l.text ++ s).shown = l.text.shown ++ s.shown := by
    rw [shown_mark_append hl, shown_mark hl, List.singleton_append]
  cases l with
  | number t =>
    rw [Lexeme.text, Bytes.shown_append_of_ascii (ascii_number h),
      Bytes.shown_of_ascii (ascii_number h)]
  | name t =>
    obtain _ | _ | ⟨⟨c, cs, rfl, -, -⟩⟩ := h
    rw [Lexeme.text, Bytes.shown_ofChars_append, Bytes.shown_ofChars]
  | operator op =>
    cases h with
    | operator hop => exact hmark (mem_marks hop)
  | leftParen => exact hmark (by decide)
  | rightParen => exact hmark (by decide)

/-- Gaps separate tokens. -/
theorem tokens?_gaps {w : Bytes} (hw : ∀ b ∈ w, Scan.isGap b = true) (s : Bytes) :
    tokens? (w ++ s).shown = tokens? s.shown := by
  induction w with
  | nil => rfl
  | cons b w ih =>
    obtain ⟨hb, hw⟩ := List.forall_mem_cons.mp hw
    have hmem := mem_gapBytes hb
    have hspace := (by decide : ∀ b ∈ gapBytes, isSpace (Char.ofNat b.toNat) = true) b hmem
    rw [List.cons_append, Bytes.shown_cons ((by decide : ∀ b ∈ gapBytes, b < 0x80) b hmem),
      tokens?_of_gap (piece?_space hspace _), ih hw]

/-- A text that consists of lexemes begins with a gap or with its first lexeme. -/
theorem head_lexes {s : Bytes} {ls : List Lexeme} (h : Lexes s ls) {c : Char}
    (hc : c ∈ s.shown.head?) :
    isSpace c = true ∨ ∃ l ∈ ls.head?, l.Stands [] ∧ c ∈ l.text.shown.head? := by
  have hgap : ∀ {w s : Bytes}, w ≠ [] → (∀ b ∈ w, Scan.isGap b = true) →
      c ∈ (w ++ s).shown.head? → isSpace c = true := by
    intro w s hne hw hc
    obtain ⟨b, w, rfl⟩ := List.exists_cons_of_ne_nil hne
    have hmem := mem_gapBytes (hw b List.mem_cons_self)
    rw [List.cons_append, Bytes.shown_cons ((by decide : ∀ b ∈ gapBytes, b < 0x80) b hmem)] at hc
    obtain rfl : _ = c := by simpa using hc
    exact (by decide : ∀ b ∈ gapBytes, isSpace (Char.ofNat b.toNat) = true) b hmem
  cases h with
  | nil hw =>
    by_cases hne : s = []
    · subst hne
      simp at hc
    · exact .inl (hgap (s := []) hne hw (by rwa [List.append_nil]))
  | @cons w rest l ls hw hl hls =>
    by_cases hne : w = []
    · subst hne
      rw [List.nil_append, shown_text_append hl.nil,
        List.head?_append_of_ne_nil _ (Bytes.shown_ne_nil hl.text_ne_nil)] at hc
      exact .inr ⟨l, rfl, hl.nil, hc⟩
    · exact .inl (hgap hne hw hc)

/-- Nothing that a number or a word could contain follows an operand. -/
theorem breaks_of_lexes {s : Bytes} {ls : List Lexeme} (h : Lexes s ls)
    (hturns : Expr.Turns false ls) : Breaks s.shown := by
  intro c hc
  rcases head_lexes h hc with hspace | ⟨l, hl, hstands, hc⟩
  · exact (by decide +kernel : ∀ c ∈ spaceChars, isWordPart c = false ∧ c ≠ '.') c
      (mem_spaceChars hspace)
  obtain ⟨ls, rfl⟩ : ∃ us, ls = l :: us := by
    cases ls <;> simp_all
  have hfollows : Expr.followsOperand l = true := hturns.1
  have hmark (hl : l ∈ marks) : isWordPart c = false ∧ c ≠ '.' := by
    rw [shown_mark hl] at hc
    obtain rfl : markChar l = c := by simpa using hc
    exact (by decide +kernel : ∀ l ∈ marks, isWordPart (markChar l) = false ∧ markChar l ≠ '.') l hl
  cases hstands with
  | operator hop => exact hmark (mem_marks hop)
  | rightParen => exact hmark (by decide)
  | _ => cases hfollows

/-- The characters that change what a mark before them means. -/
def alters : List Char := ['*', '=', '&', '/']

/-- What an operand begins with does not alter the operator before it. -/
theorem not_mem_alters {c : Char} {l : Lexeme} (hl : Expr.beginsOperand l = true)
    (h : l.Stands []) (hc : c ∈ l.text.shown.head?) : c ∉ alters := by
  have hmark (hl : l ∈ marks) (hbegin : Expr.beginsOperand l = true) : c ∉ alters := by
    rw [shown_mark hl] at hc
    obtain rfl : markChar l = c := by simpa using hc
    exact (by decide : ∀ l ∈ marks, Expr.beginsOperand l = true → markChar l ∉ alters) l hl hbegin
  cases l with
  | number t =>
    rw [Lexeme.text, Bytes.shown_of_ascii (ascii_number h)] at hc
    obtain ⟨b, hb, rfl⟩ := List.mem_map.mp (List.mem_of_mem_head? hc)
    exact (by decide : ∀ b ∈ Lexeme.numberBytes, Char.ofNat b.toNat ∉ alters) b
      (h.mem_numberBytes b hb)
  | name t =>
    obtain _ | _ | ⟨⟨d, cs, rfl, hd, -⟩⟩ := h
    rw [Lexeme.text, Bytes.shown_ofChars] at hc
    obtain rfl : d = c := by simpa using hc
    intro hmem
    rw [(by decide +kernel : ∀ c ∈ alters, isIdentifierStart c = false) d hmem] at hd
    cases hd
  | operator op =>
    cases h with
    | operator hop => exact hmark (mem_marks hop) hl
  | leftParen => exact hmark (by decide) rfl
  | rightParen => cases hl

/-- No operator that would become part of the one before follows where an operand is due. -/
theorem not_alters_of_lexes {s : Bytes} {ls : List Lexeme} (h : Lexes s ls)
    (hturns : Expr.Turns true ls) : ∀ c ∈ s.shown.head?, c ∉ alters := by
  intro c hc
  rcases head_lexes h hc with hspace | ⟨l, hl, hstands, hc⟩
  · exact (by decide : ∀ c ∈ spaceChars, c ∉ alters) c (mem_spaceChars hspace)
  obtain ⟨ls, rfl⟩ : ∃ us, ls = l :: us := by
    cases ls <;> simp_all
  exact not_mem_alters hturns.1 hstands hc

/-- The tokens of lexemes, one after the other. -/
def lexemeTokens? : List Lexeme → Option (List Token)
  | [] => some []
  | l :: ls => concat? (tokens? l.text.shown) (lexemeTokens? ls)

/-- The lexeme is no name with a digit behind a point. -/
def Plain (l : Lexeme) : Prop := ∀ t, l = .name t → ReadsName t.shown

theorem tokens?_alone {c : Char} {t : Token} (h : piece? c [] = some (.token t, [])) :
    tokens? [c] = some [t] := by
  rw [tokens?_of_token h, tokens?_nil]
  rfl

/-- A mark that nothing alters is a token of its own. -/
theorem tokens?_mark {c : Char} {y : List Char} {t : Token}
    (hself : piece? c [] = some (.token t, [])) (h : piece? c y = some (.token t, y)) :
    tokens? ([c] ++ y) = concat? (tokens? [c]) (tokens? y) := by
  rw [List.singleton_append, tokens?_of_token h, tokens?_alone hself]
  rfl

theorem piece?_times {s : List Char} (h : ∀ c ∈ s.head?, c ∉ alters) :
    piece? '*' s = some (.token .times, s) := by
  have hnext : s.head?.any (fun d => d == '*' || d == '=' || d == '&') = false := by
    cases s with
    | nil => rfl
    | cons c s =>
      have := h c rfl
      simp_all [alters]
  have hpiece : piece? '*' s = if s.head?.any fun d => d == '*' || d == '=' || d == '&' then none
      else some (.token .times, s) := rfl
  rw [hpiece, hnext]
  rfl

theorem piece?_over {s : List Char} (h : ∀ c ∈ s.head?, c ∉ alters) :
    piece? '/' s = some (.token .over, s) := by
  have hpiece : piece? '/' s = slash? s := rfl
  rw [hpiece, slash?.eq_def]
  split
  · exact absurd (by decide) (h _ rfl)
  · exact absurd (by decide) (h _ rfl)
  · rfl

/-- A lexeme in its place has the tokens that it has alone. -/
theorem tokens?_lexeme {l : Lexeme} {rest : Bytes} {ls : List Lexeme} (hl : l.Stands rest)
    (hrest : Lexes rest ls) (hturns : Expr.Turns (!Expr.endsOperand l) ls) (hplain : Plain l) :
    tokens? (l.text ++ rest).shown = concat? (tokens? l.text.shown) (tokens? rest.shown) := by
  rw [shown_text_append hl.nil]
  cases l with
  | number t => exact (number_tokens hl).1 _ (breaks_of_lexes hrest hturns)
  | name t => exact (hplain t rfl).1 _ (breaks_of_lexes hrest hturns)
  | leftParen =>
    rw [shown_mark (by decide)]
    exact tokens?_mark rfl rfl
  | rightParen =>
    rw [shown_mark (by decide)]
    exact tokens?_mark rfl rfl
  | operator op =>
    have hnext := not_alters_of_lexes hrest hturns
    obtain _ | _ | _ | hop := hl
    rw [shown_mark (mem_marks hop)]
    cases op with
    | add => exact tokens?_mark rfl rfl
    | sub => exact tokens?_mark rfl rfl
    | mul => exact tokens?_mark rfl (piece?_times hnext)
    | div => exact tokens?_mark rfl (piece?_over hnext)
    | other => cases hop

/-- Both parts have tokens if the whole has. -/
theorem concat?_eq_some {x y : Option (List Token)} {ts : List Token}
    (h : concat? x y = some ts) : ∃ us vs, x = some us ∧ y = some vs ∧ ts = us ++ vs := by
  cases x with
  | none => cases h
  | some us =>
    cases y with
    | none => cases h
    | some vs => exact ⟨us, vs, rfl, rfl, (Option.some.inj h).symm⟩

/-- **A text has the tokens of its lexemes**, if there is no name with a digit behind a point. -/
theorem tokens?_lexes {s : Bytes} {ls : List Lexeme} (h : Lexes s ls) {due : Bool}
    (hturns : Expr.Turns due ls) (hplain : ∀ l ∈ ls, Plain l) :
    tokens? s.shown = lexemeTokens? ls := by
  induction h generalizing due with
  | nil hw =>
    have := tokens?_gaps hw []
    rwa [List.append_nil, Bytes.shown_nil, tokens?_nil] at this
  | cons hw hl hls ih =>
    obtain ⟨hplain, hrest⟩ := List.forall_mem_cons.mp hplain
    rw [tokens?_gaps hw, tokens?_lexeme hl hls hturns.2 hplain, ih hturns.2 hrest, lexemeTokens?]

/-- Where no number follows a word, there is no name with a digit behind a point. -/
theorem plain_of_seemly {s : Bytes} {ls : List Lexeme} (h : Lexes s ls) {due : Bool}
    (hturns : Expr.Turns due ls) {ts : List Token} (hts : tokens? s.shown = some ts)
    (hseemly : Seemly ts) : ∀ l ∈ ls, Plain l := by
  induction h generalizing due ts with
  | nil => simp
  | @cons w rest l ls hw hl hls ih =>
    rw [tokens?_gaps hw] at hts
    have hplain : Plain l := by
      rintro t rfl
      obtain _ | _ | ⟨hname⟩ := hl.nil
      refine (name_cases hname).resolve_right fun hclash => ?_
      rw [shown_text_append hl.nil] at hts
      exact hclash _ ts hts hseemly
    rw [tokens?_lexeme hl hls hturns.2 hplain] at hts
    obtain ⟨us, vs, -, hvs, rfl⟩ := concat?_eq_some hts
    exact List.forall_mem_cons.mpr
      ⟨hplain, ih hturns.2 hvs hseemly.right_of_append⟩

end Formula

end LayoutMarkup

import LayoutMarkup.Proofs.Agreement

/-!
# Proofs/Meaning — what an expression means as a formula

The term of an expression is put together from its parts (`meaning?`): a number stands for the value
that its digits write, a dotted name for a member of a member of what its first part names, and
operators for themselves.  A text that holds an expression and can be read as a formula is read as
this term (`meaning_of_read`).

Formulas have tokens of their own, and a grammar of their own with members in it.  How the two
grammars group a sequence of lexemes is settled in `Proofs/Agreement`; here it is said what becomes
of each lexeme.
-/

namespace LayoutMarkup

namespace Formula

/-! ## The term of an expression, from its parts -/

/-- The mark between the parts of a name, and between the digits of a number. -/
abbrev mark : UInt8 := '.'.toUInt8

/-- The values of some digits. -/
def digitsOf (s : Bytes) : List Nat := s.map fun b => b.toNat - '0'.toNat

/-- The value that a number writes: an integer, or a binary fraction if there is a point in it; none
if that is too large. -/
def writtenNumber? (text : Bytes) : Option Number :=
  match text.splitOn mark with
  | [whole] => some (.integer (Decimal.natOfDigits (digitsOf whole)))
  | [whole, fraction] =>
    (Decimal.ofParts (digitsOf whole) (digitsOf fraction) 0).value?.map .fraction
  | _ => none

/-- Members of members of an object, by their names. -/
def members (object : Term) (names : List Bytes) : Term :=
  names.foldl (fun object name => .member object (.text name)) object

/-- What a dotted name stands for. -/
def dottedName (text : Bytes) : Term :=
  match text.splitOn mark with
  | [] => .name []
  | first :: names => members (.name first) names

/-- The term of an expression; there is none for calls and numbers that are too large. -/
def meaning? : Expr → Option Term
  | .number text => (writtenNumber? text).map .number
  | .name text => some (dottedName text)
  | .neg e => (meaning? e).map .neg
  | .binary op l r =>
    (Operation.ofOperator? op).bind fun o =>
      (meaning? l).bind fun t => (meaning? r).map fun u => .binary o t u
  | .call _ => none

/-! ## Numbers -/

theorem splitOn_of_not_mem {s : Bytes} (h : mark ∉ s) : s.splitOn mark = [s] := by
  refine List.splitOnP_eq_singleton fun b hb => beq_eq_false_iff_ne.mpr ?_
  rintro rfl
  exact h hb

theorem splitOn_append_cons {s : Bytes} (h : mark ∉ s) (t : Bytes) :
    (s ++ mark :: t).splitOn mark = s :: t.splitOn mark := by
  refine List.splitOnP_append_cons_of_forall_mem (fun b hb => beq_eq_false_iff_ne.mpr ?_) _
    (by simp) _
  rintro rfl
  exact h hb

theorem mark_not_mem_digits {ds : Bytes} (h : ∀ b ∈ ds, Bytes.isDigit b = true) : mark ∉ ds :=
  fun hmem => absurd (h mark hmem) (by decide)

theorem map_digitValue {ds : Bytes} (h : ∀ b ∈ ds, Bytes.isDigit b = true) :
    (ds.map fun b => Char.ofNat b.toNat).map digitValue = digitsOf ds := by
  rw [List.map_map, digitsOf]
  exact List.map_congr_left fun b hb =>
    (by decide : ∀ b ∈ digitBytes, digitValue (Char.ofNat b.toNat) = b.toNat - '0'.toNat) b
      (mem_digitBytes (h b hb))

theorem valueOf_ten (cs : List Char) : valueOf 10 cs = Decimal.natOfDigits (cs.map digitValue) := by
  rw [valueOf, Decimal.natOfDigits, List.foldl_map]

/-- A text that is a single number as a formula. -/
theorem read?_of_tokens?_number {text : Bytes} {v : Option Number}
    (h : tokens? text.shown = v.map ([.number ·])) : read? text = v.map .number := by
  rw [read?_eq, h]
  rcases v with _ | n
  · rfl
  · have hfactor : factor? [.number n] = (some (Term.number n)).map (·, []) := factor?_number
    have hsum := chain?_of_factor? hfactor .sum
    simp only [Option.map_some, Option.bind_some, hsum, finish?]

/-- **A number is read as the value that it writes.** -/
theorem writtenNumber?_of_read? {text : Bytes} {t : Term} (h : (Lexeme.number text).Stands [])
    (ht : read? text = some t) : (writtenNumber? text).map .number = some t := by
  cases h with
  | whole hne hds =>
    rw [read?_of_tokens?_number (local_of_number fun y hy => tokens?_whole hne hds hy).2] at ht
    obtain ⟨n, hn, rfl⟩ := Option.map_eq_some_iff.mp ht
    simp only [decimalValue?, Option.isNone_none, Bool.and_self, if_true, integer?] at hn
    split at hn
    · cases hn
    · obtain rfl := Option.some.inj hn
      rw [writtenNumber?, splitOn_of_not_mem (mark_not_mem_digits hds), valueOf_ten,
        map_digitValue hds]
      rfl
  | @decimal ds fs _ hds hne hfs =>
    rw [read?_of_tokens?_number
      (local_of_number fun y hy => tokens?_decimal hds hne hfs hy).2] at ht
    rw [← ht, writtenNumber?, splitOn_append_cons (mark_not_mem_digits hds),
      splitOn_of_not_mem (mark_not_mem_digits hfs), decimalValue?]
    simp only [Option.isNone_some, Bool.false_and, Bool.false_eq_true, if_false, Option.getD_some,
      Option.getD_none, map_digitValue hds, map_digitValue hfs]

/-! ## Names -/

/-- The bytes of a word hold no point. -/
theorem mark_not_mem_word {w : List Char} (h : ∀ c ∈ w, isWordPart c = true) :
    mark ∉ Bytes.ofChars w := by
  intro hmem
  obtain ⟨c, hc, hb⟩ := List.mem_flatMap.mp hmem
  have hpoint := Bytes.eq_ofNat_of_mem_encode hb (by decide)
  have hword := h c hc
  rw [hpoint] at hword
  exact absurd hword (by decide)

theorem members_cons (object : Term) (name : Bytes) (names : List Bytes) :
    members object (name :: names) = members (.member object (.text name)) names := rfl

/-- The names of the members that stand behind a word. -/
def behindWord (x : List Char) : List Bytes :=
  match x with
  | [] => []
  | _ :: y => (Bytes.ofChars y).splitOn mark

theorem splitOn_word {w z : List Char} (hw : ∀ c ∈ w, isWordPart c = true)
    (hz : ∀ c ∈ z.head?, c = '.') :
    (Bytes.ofChars (w ++ z)).splitOn mark = Bytes.ofChars w :: behindWord z := by
  rw [Bytes.ofChars_append]
  rcases z with _ | ⟨c, z⟩
  · rw [Bytes.ofChars_nil, List.append_nil, splitOn_of_not_mem (mark_not_mem_word hw)]
    rfl
  · obtain rfl := hz c rfl
    exact splitOn_append_cons (mark_not_mem_word hw) _

/-- A name is a word and what stands behind it, for its tokens as well as for its parts. -/
theorem exists_first_word {d : Char} {x : List Char} (hd : isWordPart d = true)
    (hdigit : d.isDigit = false) (hx : ∀ c ∈ x, isIdentifierPart c = true) :
    ∃ w z, z.length ≤ x.length ∧ (∀ c ∈ z, isIdentifierPart c = true) ∧
      (∀ c ∈ z.head?, c = '.') ∧ tokens? (d :: x) = (tokens? z).map (.word w :: ·) ∧
      (Bytes.ofChars (d :: x)).splitOn mark = Bytes.ofChars w :: behindWord z := by
  obtain ⟨hparts, hhead⟩ := behind_word hx
  have hsplit := List.takeWhile_append_dropWhile (p := isWordPart) (l := x)
  have hw : ∀ c ∈ x.takeWhile isWordPart, isWordPart c = true :=
    fun c hc => List.mem_takeWhile_imp hc
  refine ⟨d :: x.takeWhile isWordPart, x.dropWhile isWordPart, List.length_dropWhile_le _ x, hparts,
    hhead, ?_, ?_⟩
  · have htokens := tokens?_word hd hdigit hw (head?_dropWhile (s := x))
    rwa [hsplit] at htokens
  · have hwords := splitOn_word (List.forall_mem_cons.mpr ⟨hd, hw⟩) hhead
    rwa [List.cons_append, hsplit] at hwords

/-- What stands behind a word in a name asks for its members, if nothing is left of it. -/
theorem access?_behindWord (x : List Char) (hx : ∀ c ∈ x, isIdentifierPart c = true)
    (hhead : ∀ c ∈ x.head?, c = '.') {us : List Token} (hus : tokens? x = some us)
    {object t : Term} (h : access? object us = some (t, [])) :
    t = members object (behindWord x) := by
  match x with
  | [] =>
    rw [tokens?_nil] at hus
    obtain rfl := Option.some.inj hus
    rw [access?_done (by simp)] at h
    obtain ⟨rfl, -⟩ := Prod.mk.inj (Option.some.inj h)
    rfl
  | c :: [] =>
    obtain rfl := hhead c rfl
    have hdot : tokens? ['.'] = some [.dot] := tokens?_alone rfl
    rw [hdot] at hus
    obtain rfl := Option.some.inj hus
    rw [access?_point] at h
    cases h
  | c :: d :: x =>
    obtain rfl := hhead c rfl
    obtain ⟨-, hd, hx⟩ : _ ∧ isIdentifierPart d = true ∧ ∀ c ∈ x, isIdentifierPart c = true := by
      simpa using hx
    by_cases hpoint : d = '.'
    · subst hpoint
      rw [tokens?_points] at hus
      cases hus
    by_cases hdigit : d.isDigit = true
    · -- The number behind the point is left over.
      obtain ⟨n, vs, rfl⟩ := exists_number_of_point hdigit hus
      rw [access?_done (by simp)] at h
      exact absurd (Prod.mk.inj (Option.some.inj h)).2 (List.cons_ne_nil _ _)
    · rw [Bool.not_eq_true] at hdigit
      obtain ⟨w, z, hlength, hz, hhead', htokens, hwords⟩ :=
        exists_first_word (isWordPart_of_isIdentifierPart hd hpoint) hdigit hx
      rw [tokens?_point hpoint hdigit, htokens] at hus
      obtain ⟨vs, hvs, rfl⟩ := Option.map_eq_some_iff.mp hus
      obtain ⟨vs, hvs', rfl⟩ := Option.map_eq_some_iff.mp hvs
      rw [behindWord, hwords, members_cons]
      exact access?_behindWord z hz hhead' hvs' (access?_dot.symm.trans h)
termination_by x.length

/-- **A dotted name is read as members of what its first part names.** -/
theorem dottedName_of_read? {text : Bytes} {t : Term} (h : text.IsIdentifier)
    (ht : read? text = some t) : dottedName text = t := by
  have harith : (Expr.name text).Arithmetic := .name h (Bytes.stops_nil _)
  obtain ⟨hplain, -⟩ := plain_of_read? (Expr.lexes_spelling harith)
    (Expr.derives_spelling harith).goal_sum ht
  obtain ⟨-, hnames⟩ := hplain _ List.mem_cons_self text rfl
  obtain ⟨c, cs, rfl, hc, hcs⟩ := h
  have hdigit : c.isDigit = false := by
    by_contra hd
    have hstart := (by decide +kernel : ∀ c ∈ digitChars, isIdentifierStart c = false) c
      (mem_digitChars (by simpa using hd))
    rw [hc] at hstart
    cases hstart
  have hpoint : c ≠ '.' := by
    rintro rfl
    exact absurd hc (by decide)
  obtain ⟨w, z, -, hz, hhead, htokens, hwords⟩ := exists_first_word
    (isWordPart_of_isIdentifierPart (isIdentifierPart_of_isIdentifierStart c hc) hpoint) hdigit hcs
  -- The tokens are the first word and what asks for its members.
  rw [Bytes.shown_ofChars] at hnames
  rw [read?_eq, Bytes.shown_ofChars, htokens] at ht
  obtain ⟨ts, hts, ht⟩ := Option.bind_eq_some_iff.mp ht
  obtain ⟨w', us, rfl, htail⟩ := hnames ts (htokens.trans hts)
  obtain ⟨us', hus, heq⟩ := Option.map_eq_some_iff.mp hts
  obtain ⟨rfl, rfl⟩ : w = w' ∧ us' = us := by simpa using heq
  obtain ⟨v, hv⟩ := access?_nameTail htail (.name (Bytes.ofChars w))
  have haccess := hv [] behind_nil
  rw [List.append_nil] at haccess
  have hfactor : factor? (.word w :: us')
      = (if w ∈ reserved.map String.toList then none else v).map (·, []) := by
    rw [factor?_word]
    split
    · rfl
    · exact haccess
  rw [chain?_of_factor? hfactor] at ht
  split at ht
  · cases ht
  · rcases v with _ | t'
    · cases ht
    · obtain rfl : t' = t := Option.some.inj ht
      rw [dottedName, hwords]
      exact (access?_behindWord z hz hhead hus haccess).symm

/-! ## Expressions -/

/-- The terms of numbers and names decide the term of the expression. -/
theorem meaning?_of_image? {n : Expr} (hn : n.Arithmetic) :
    ∀ {t : Term}, image? n = some t → meaning? n = some t := by
  induction n with
  | number text => exact fun ht => writtenNumber?_of_read? hn ht
  | name text =>
    obtain _ | _ | ⟨hname⟩ := hn
    exact fun ht => congrArg some (dottedName_of_read? hname ht)
  | call c => contradiction
  | neg e ih =>
    intro t ht
    obtain ⟨u, hu, rfl⟩ := Option.map_eq_some_iff.mp ht
    rw [meaning?, ih hn hu]
    rfl
  | binary op l r ihl ihr =>
    obtain ⟨-, hl, hr⟩ := hn
    intro t ht
    rw [image?] at ht
    obtain ⟨o, ho, ht⟩ := Option.bind_eq_some_iff.mp ht
    obtain ⟨u, hu, ht⟩ := Option.bind_eq_some_iff.mp ht
    obtain ⟨u', hu', rfl⟩ := Option.map_eq_some_iff.mp ht
    rw [meaning?, ho, ihl hl hu, ihr hr hu']
    rfl

/-- **A text that is both an expression and a formula is read in the same way**: the term of the
formula is the term of the expression. -/
theorem meaning_of_read {src : Bytes} {n : Expr} {t : Term} (hn : Expr.parse src = .ok n)
    (ht : read? src = some t) : meaning? n = some t := by
  obtain ⟨ls, hlexes, hderives, -⟩ := Expr.parse_iff_derives.mp hn
  obtain ⟨hplain, ts, hts⟩ := plain_of_read? hlexes hderives ht
  refine meaning?_of_image? (Expr.arithmetic_of_parse hn) ?_
  rw [← read?_of_derives hlexes hderives hplain hts, ht]

/-- Members, a fraction, and an operator that binds before another. -/
theorem meaning_of_read_members : ∃ n t,
    Expr.parse (Bytes.utf8 "-(size.max.x + .5) * 10") = .ok n ∧
      read? (Bytes.utf8 "-(size.max.x + .5) * 10") = some t ∧ meaning? n = some t := by
  have hn : Expr.parse (Bytes.utf8 "-(size.max.x + .5) * 10") = .ok (.binary .mul
      (.neg (.binary .add (.name (Bytes.utf8 "size.max.x")) (.number (Bytes.utf8 ".5"))))
      (.number (Bytes.utf8 "10"))) := by decide +kernel
  have ht : read? (Bytes.utf8 "-(size.max.x + .5) * 10") = some (.binary .times
      (.neg (.binary .plus
        (.member (.member (.name (Bytes.utf8 "size")) (.text (Bytes.utf8 "max")))
          (.text (Bytes.utf8 "x")))
        (.number (.fraction ⟨Nat.pow 2 1073⟩))))
      (.number (.integer 10))) := by decide +kernel
  exact ⟨_, _, hn, ht, meaning_of_read hn ht⟩

end Formula

end LayoutMarkup

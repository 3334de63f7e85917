import LayoutMarkup.Expr.Call
import LayoutMarkup.Proofs.Lexemes

/-!
# Proofs/Calls — which texts are calls

    name ( argument , … , argument )

An argument is a text whose parentheses are balanced, with no comma outside of them (`depth?`).
`Call.parse_iff`: a text holds a call exactly if it is a name and some arguments written like this,
with gaps around them.
-/

namespace LayoutMarkup

namespace Call

/-! ## Arguments -/

/-- A comma. -/
abbrev comma : UInt8 := ','.toUInt8

/-- The depth behind a byte. -/
def step (depth : Nat) (b : UInt8) : Nat :=
  if b == '('.toUInt8 then depth + 1 else if b == ')'.toUInt8 then depth - 1 else depth

/-- Does the byte end an argument? -/
def stops (depth : Nat) (b : UInt8) : Bool := (b == comma || b == ')'.toUInt8) && depth == 0

/-- How many parentheses are open at the end of a text, none if a comma or a closing parenthesis
stands outside of all of them. -/
def depth? : Nat → Bytes → Option Nat
  | depth, [] => some depth
  | depth, b :: s => if stops depth b then none else depth? (step depth b) s

/-- The text can be an argument as a whole. -/
def Closed (s : Bytes) : Prop := depth? 0 s = some 0

theorem split_nil {pos depth : Nat} :
    split pos depth [] = if depth = 0 then .ok ([], []) else .error ⟨pos + 1, .unbalancedOpening⟩ :=
  rfl

/-- A comma outside all parentheses ends an argument. -/
theorem split_comma {pos : Nat} {s : Bytes} : split pos 0 (comma :: s)
    = (split (pos + 1) 0 s).map fun r => ([], r.1 :: r.2) := by
  rw [split]
  cases split (pos + 1) 0 s <;> rfl

/-- A parenthesis that closes nothing is refused. -/
theorem split_closing {pos : Nat} {s : Bytes} :
    split pos 0 (')'.toUInt8 :: s) = .error ⟨pos, .unbalancedClosing⟩ := by
  rw [split]
  rfl

/-- Any other byte belongs to the argument. -/
theorem split_other {pos depth : Nat} {b : UInt8} {s : Bytes} (h : stops depth b = false) :
    split pos depth (b :: s)
      = (split (pos + 1) (step depth b) s).map fun r => (b :: r.1, r.2) := by
  simp only [stops, Bool.and_eq_false_iff, Bool.or_eq_false_iff] at h
  have hcomma : (b == ','.toUInt8 && depth == 0) = false := by
    rw [Bool.and_eq_false_iff]
    exact h.imp And.left id
  have hclosing : (b == ')'.toUInt8 && depth == 0) = false := by
    rw [Bool.and_eq_false_iff]
    exact h.imp And.right id
  rw [split]
  simp only [hcomma, hclosing]
  rw [← step]
  cases split (pos + 1) (step depth b) s <;> rfl

theorem intercalate_cons {arg : Bytes} {b : UInt8} {args : List Bytes} :
    [comma].intercalate ((b :: arg) :: args) = b :: [comma].intercalate (arg :: args) := by
  cases args with
  | nil => simp [List.intercalate_singleton]
  | cons a args => simp [List.intercalate_cons_cons]

/-- An empty argument with others behind it is followed by a comma. -/
theorem intercalate_nil_eq_cons {b : UInt8} {s : Bytes} {args : List Bytes}
    (h : [comma].intercalate ([] :: args) = b :: s) :
    b = comma ∧ ∃ arg args', args = arg :: args' ∧ [comma].intercalate (arg :: args') = s := by
  cases args with
  | nil => simp [List.intercalate_singleton] at h
  | cons arg args =>
    rw [List.intercalate_cons_cons] at h
    obtain ⟨hb, hs⟩ := List.cons.inj h
    exact ⟨hb.symm, arg, args, rfl, hs⟩

/-- The arguments make up the text, and each one is closed; the first one may begin inside some
parentheses. -/
structure Splits (depth : Nat) (s arg : Bytes) (args : List Bytes) : Prop where
  text : [comma].intercalate (arg :: args) = s
  first : depth? depth arg = some 0
  others : ∀ a ∈ args, Closed a

section Splits

variable {depth : Nat} {b : UInt8} {s arg : Bytes} {args : List Bytes}

theorem splits_nil : Splits depth [] arg args ↔ depth = 0 ∧ arg = [] ∧ args = [] := by
  constructor
  · rintro ⟨htext, hfirst, -⟩
    rcases arg with _ | ⟨x, arg⟩
    · rcases args with _ | ⟨a, args⟩
      · exact ⟨Option.some.inj hfirst, rfl, rfl⟩
      · rw [List.intercalate_cons_cons] at htext
        contradiction
    · rw [intercalate_cons] at htext
      contradiction
  · rintro ⟨rfl, rfl, rfl⟩
    exact ⟨List.intercalate_singleton, rfl, by simp⟩

/-- A byte that ends an argument is part of none. -/
theorem Splits.eq_nil_of_stops (h : Splits depth (b :: s) arg args) (hstop : stops depth b = true) :
    arg = [] := by
  obtain ⟨htext, hfirst, -⟩ := h
  rcases arg with _ | ⟨x, arg⟩
  · rfl
  · rw [intercalate_cons] at htext
    obtain ⟨rfl, -⟩ := List.cons.inj htext
    rw [depth?, hstop] at hfirst
    contradiction

/-- The first argument ends at a comma outside all parentheses, and the others come behind it. -/
theorem splits_comma : Splits 0 (comma :: s) arg args ↔
    arg = [] ∧ ∃ arg' args', args = arg' :: args' ∧ Splits 0 s arg' args' := by
  constructor
  · intro h
    obtain rfl := h.eq_nil_of_stops rfl
    obtain ⟨-, arg', args', rfl, htext⟩ := intercalate_nil_eq_cons h.text
    obtain ⟨hfirst, hothers⟩ := List.forall_mem_cons.mp h.others
    exact ⟨rfl, arg', args', rfl, htext, hfirst, hothers⟩
  · rintro ⟨rfl, arg', args', rfl, htext, hfirst, hothers⟩
    refine ⟨?_, rfl, List.forall_mem_cons.mpr ⟨hfirst, hothers⟩⟩
    rw [List.intercalate_cons_cons, htext]
    rfl

/-- No argument has a parenthesis in it that closes nothing. -/
theorem not_splits_closing : ¬ Splits 0 (')'.toUInt8 :: s) arg args := by
  intro h
  obtain rfl := h.eq_nil_of_stops rfl
  obtain ⟨hb, -⟩ := intercalate_nil_eq_cons h.text
  exact absurd hb (by decide)

/-- A byte that ends no argument stands in the first one. -/
theorem splits_other (hstop : stops depth b = false) : Splits depth (b :: s) arg args ↔
    ∃ arg', arg = b :: arg' ∧ Splits (step depth b) s arg' args := by
  constructor
  · rintro ⟨htext, hfirst, hothers⟩
    rcases arg with _ | ⟨x, arg⟩
    · obtain rfl : depth = 0 := Option.some.inj hfirst
      obtain ⟨rfl, -⟩ := intercalate_nil_eq_cons htext
      contradiction
    · rw [intercalate_cons] at htext
      obtain ⟨rfl, rfl⟩ := List.cons.inj htext
      rw [depth?, hstop] at hfirst
      exact ⟨arg, rfl, rfl, hfirst, hothers⟩
  · rintro ⟨arg', rfl, rfl, hfirst, hothers⟩
    refine ⟨intercalate_cons, ?_, hothers⟩
    rw [depth?, hstop]
    exact hfirst

/-- **A text is split into its arguments.** -/
theorem split_iff {pos : Nat} : split pos depth s = .ok (arg, args) ↔ Splits depth s arg args := by
  induction s generalizing pos depth arg args with
  | nil =>
    rw [split_nil, splits_nil]
    by_cases hdepth : depth = 0 <;> simp [hdepth, eq_comm]
  | cons b s ih =>
    cases hstop : stops depth b with
    | true =>
      obtain ⟨rfl | rfl, rfl⟩ : (b = comma ∨ b = ')'.toUInt8) ∧ depth = 0 := by
        simpa [stops] using hstop
      · rw [split_comma, splits_comma, Except.map_eq_ok_iff]
        constructor
        · rintro ⟨⟨arg', args'⟩, hr, heq⟩
          obtain ⟨rfl, rfl⟩ := Prod.mk.inj heq
          exact ⟨rfl, arg', args', rfl, ih.mp hr⟩
        · rintro ⟨rfl, arg', args', rfl, h⟩
          exact ⟨(arg', args'), ih.mpr h, rfl⟩
      · rw [split_closing]
        exact ⟨nofun, fun h => absurd h not_splits_closing⟩
    | false =>
      rw [split_other hstop, splits_other hstop, Except.map_eq_ok_iff]
      constructor
      · rintro ⟨⟨arg', args'⟩, hr, heq⟩
        obtain ⟨rfl, rfl⟩ := Prod.mk.inj heq
        exact ⟨arg', rfl, ih.mp hr⟩
      · rintro ⟨arg', rfl, h⟩
        exact ⟨(arg', args), ih.mpr h, rfl⟩

end Splits

theorem trimAll_cons {pos k : Nat} {raw : Bytes} {raws : List Bytes} :
    trimAll pos k (raw :: raws) = if raw.trimSpace.isEmpty then .error ⟨pos, .emptyArgument k⟩
      else (trimAll pos (k + 1) raws).map (raw.trimSpace :: ·) := by
  rw [trimAll]
  cases raw.trimSpace.isEmpty
  · cases trimAll pos (k + 1) raws <;> rfl
  · rfl

/-- Arguments are trimmed, and none may be blank. -/
theorem trimAll_iff {pos k : Nat} {raws args : List Bytes} :
    trimAll pos k raws = .ok args ↔
      (∀ r ∈ raws, r.trimSpace ≠ []) ∧ args = raws.map Bytes.trimSpace := by
  induction raws generalizing k args with
  | nil =>
    refine ⟨fun h => ⟨by simp, (Except.ok.inj h).symm⟩, ?_⟩
    rintro ⟨-, rfl⟩
    rfl
  | cons raw raws ih =>
    rw [trimAll_cons, List.forall_mem_cons, List.map_cons]
    by_cases hraw : raw.trimSpace = []
    · rw [if_pos (by simpa using hraw)]
      exact ⟨fun h => (by cases h), fun h => absurd hraw h.1.1⟩
    rw [if_neg (by simpa using hraw), Except.map_eq_ok_iff]
    constructor
    · rintro ⟨out, ht, rfl⟩
      obtain ⟨hall, rfl⟩ := ih.mp ht
      exact ⟨⟨hraw, hall⟩, rfl⟩
    · rintro ⟨⟨-, hall⟩, rfl⟩
      exact ⟨_, ih.mpr ⟨hall, rfl⟩, rfl⟩

/-! ## Calls -/

/-- Arguments in parentheses. -/
def arguments (raws : List Bytes) : Bytes :=
  '('.toUInt8 :: ([comma].intercalate raws ++ [')'.toUInt8])

/-- The text is a call with these arguments, each of which may have white space around it, and gaps
around the parts of the call. -/
inductive Written (name : Bytes) (raws : List Bytes) : Bytes → Prop
  | intro {w w' w'' : Bytes} (hw : ∀ b ∈ w, Scan.isGap b = true) (hname : name.IsIdentifier)
      (hw' : ∀ b ∈ w', Scan.isGap b = true) (hne : raws ≠ []) (hraws : ∀ r ∈ raws, Closed r)
      (hw'' : ∀ b ∈ w'', Scan.isGap b = true) :
      Written name raws (w ++ (name ++ (w' ++ (arguments raws ++ w''))))

/-- What the parser makes of a text behind its name. -/
def parseArguments (name : Bytes) (opening : Cursor) : Except SyntaxError Call :=
  if !opening.at? '(' then .error ⟨opening.pos, .noOpening⟩
  else if opening.rest.getLast? != some ')'.toUInt8 then
    .error ⟨opening.pos + opening.rest.length, .noClosing⟩
  else (split (opening.skip 1).pos 0 (opening.skip 1).rest.dropLast).bind fun r =>
    (trimAll (opening.skip 1).pos 1 (r.1 :: r.2)).map (Call.mk name)

/-- The parser as a name and what stands behind it, without gaps at the ends. -/
theorem parse_eq (src : Bytes) : parse src =
    (let first := (Cursor.start (src.trimEnd Scan.isGap)).skipWhile Scan.isGap
    let name := first.rest.identifier
    if name.isEmpty then .error ⟨first.pos, .noName⟩
    else parseArguments name ((first.skip name.length).skipWhile Scan.isGap)) := by
  rw [parse]
  generalize (Cursor.start (src.trimEnd Scan.isGap)).skipWhile Scan.isGap = first
  simp only
  cases first.rest.identifier.isEmpty with
  | true => rfl
  | false =>
    generalize (first.skip first.rest.identifier.length).skipWhile Scan.isGap = opening
    simp only [parseArguments]
    cases opening.at? '(' with
    | false => rfl
    | true =>
      cases opening.rest.getLast? != some ')'.toUInt8 with
      | true => rfl
      | false =>
        simp only [Bool.not_true, Bool.false_eq_true, if_false, bind, Except.bind]
        cases split (opening.skip 1).pos 0 (opening.skip 1).rest.dropLast with
        | error e => rfl
        | ok r =>
          simp only [Except.map]
          cases trimAll (opening.skip 1).pos 1 (r.1 :: r.2) <;> rfl

theorem getLast?_arguments (raws : List Bytes) :
    (arguments raws).getLast? = some ')'.toUInt8 := by
  rw [arguments, ← List.cons_append, List.getLast?_append]
  rfl

/-- A text in parentheses. -/
theorem exists_of_parens {s : Bytes} (hlast : s.getLast? = some ')'.toUInt8)
    (hs : ∃ t, s = '('.toUInt8 :: t) : ∃ t, s = '('.toUInt8 :: (t ++ [')'.toUInt8]) := by
  obtain ⟨t, rfl⟩ := hs
  obtain ⟨u, hu⟩ := List.getLast?_eq_some_iff.mp hlast
  cases u with
  | nil => cases hu
  | cons b u =>
    obtain ⟨-, rfl⟩ := List.cons.inj hu
    exact ⟨u, rfl⟩

/-- What stands behind the name are arguments in parentheses, at least one and all of them closed.
-/
theorem parseArguments_iff {name : Bytes} {opening : Cursor} {c : Call} :
    parseArguments name opening = .ok c ↔ ∃ raws : List Bytes, opening.rest = arguments raws ∧
      raws ≠ [] ∧ (∀ r ∈ raws, Closed r) ∧ (∀ r ∈ raws, r.trimSpace ≠ []) ∧
      c = ⟨name, raws.map Bytes.trimSpace⟩ := by
  constructor
  · intro h
    rw [parseArguments] at h
    split at h
    · cases h
    · next hat =>
      split at h
      · cases h
      · next hlast =>
        obtain ⟨t, ht⟩ := exists_of_parens (by simpa using hlast)
          ((Cursor.at?_iff (by decide)).mp (by simpa using hat))
        have hbody : (opening.skip 1).rest.dropLast = t := by
          rw [Cursor.skip, ht]
          simp
        rw [hbody] at h
        obtain ⟨⟨arg, args⟩, hsplit, hrest⟩ := Except.bind_eq_ok_iff.mp h
        obtain ⟨rfl, harg, hargs⟩ := split_iff.mp hsplit
        obtain ⟨out, htrim, rfl⟩ := Except.map_eq_ok_iff.mp hrest
        obtain ⟨hne, rfl⟩ := trimAll_iff.mp htrim
        exact ⟨arg :: args, ht, by simp, List.forall_mem_cons.mpr ⟨harg, hargs⟩, hne, rfl⟩
  · rintro ⟨raws, hrest, hne, hclosed, htrim, rfl⟩
    obtain ⟨arg, args, rfl⟩ := List.exists_cons_of_ne_nil hne
    obtain ⟨harg, hargs⟩ := List.forall_mem_cons.mp hclosed
    have hat : opening.at? '(' = true := (Cursor.at?_iff (by decide)).mpr ⟨_, hrest⟩
    have hbody : (opening.skip 1).rest.dropLast = [comma].intercalate (arg :: args) := by
      rw [Cursor.skip, hrest, arguments]
      simp
    rw [parseArguments, hat, hrest, getLast?_arguments, hbody, split_iff.mpr ⟨rfl, harg, hargs⟩]
    simp only [Except.bind, trimAll_iff.mpr ⟨htrim, rfl⟩]
    simp [Except.map]

theorem not_gap_of_isIdentifier {name : Bytes} (h : name.IsIdentifier) :
    ∀ b ∈ name, Scan.isGap b = false := by
  intro b hb
  by_contra hgap
  have hmem := mem_gapBytes (by simpa using hgap)
  have hpart := Bytes.IsWord.part_of_mem isIdentifierPart_of_isIdentifierStart h hb
    ((by decide : ∀ b ∈ gapBytes, b < 0x80) b hmem)
  rw [(by decide : ∀ b ∈ gapBytes, isIdentifierPart (Char.ofNat b.toNat) = false) b hmem] at hpart
  cases hpart

/-- The name ends before the parenthesis, or before the gap in front of it. -/
theorem stops_arguments {w' : Bytes} (hw' : ∀ b ∈ w', Scan.isGap b = true) (raws : List Bytes) :
    Bytes.Stops isIdentifierPart (w' ++ arguments raws) := by
  cases w' with
  | nil => exact Bytes.stops_cons (by decide) (by decide) _
  | cons b w' =>
    have hmem := mem_gapBytes (hw' b List.mem_cons_self)
    exact Bytes.stops_cons ((by decide : ∀ b ∈ gapBytes, b < 0x80) b hmem)
      ((by decide : ∀ b ∈ gapBytes, isIdentifierPart (Char.ofNat b.toNat) = false) b hmem) _

/-- A call that is written down is read. -/
theorem parse_of_written {name src : Bytes} {raws : List Bytes} (h : Written name raws src)
    (hraws : ∀ r ∈ raws, r.trimSpace ≠ []) :
    parse src = .ok ⟨name, raws.map Bytes.trimSpace⟩ := by
  obtain @⟨w, w', w'', hw, hname, hw', hne, hclosed, hw''⟩ := h
  have htrim : Bytes.trimEnd Scan.isGap (w ++ (name ++ (w' ++ (arguments raws ++ w''))))
      = w ++ (name ++ (w' ++ arguments raws)) := by
    rw [← List.append_assoc w', ← List.append_assoc name, ← List.append_assoc w]
    refine Bytes.trimEnd_append hw'' fun b hb => ?_
    obtain rfl : ')'.toUInt8 = b := by
      simpa [List.getLast?_append, getLast?_arguments] using hb
    decide
  have hfirst : (Cursor.start (w ++ (name ++ (w' ++ arguments raws)))).skipWhile Scan.isGap
      = ⟨0 + w.length, name ++ (w' ++ arguments raws)⟩ := by
    refine Cursor.skipWhile_append 0 hw fun b hb => not_gap_of_isIdentifier hname b ?_
    obtain ⟨x, t, rfl⟩ := List.exists_cons_of_ne_nil (Bytes.IsWord.ne_nil hname)
    simp_all
  have hread : Bytes.identifier (name ++ (w' ++ arguments raws)) = name :=
    Bytes.word_append isIdentifierPart_of_isIdentifierStart hname (stops_arguments hw' raws)
  have hempty : name.isEmpty = false := by simpa using Bytes.IsWord.ne_nil hname
  rw [parse_eq, htrim, hfirst]
  simp only [hread, hempty, Bool.false_eq_true, if_false, Cursor.skip_append]
  rw [Cursor.skipWhile_append _ hw' (by simp [arguments]; decide)]
  exact parseArguments_iff.mpr ⟨raws, rfl, hne, hclosed, hraws, rfl⟩

/-- A call that is read is written down. -/
theorem written_of_parse {src : Bytes} {c : Call} (h : parse src = .ok c) :
    ∃ raws, Written c.name raws src ∧ (∀ r ∈ raws, r.trimSpace ≠ []) ∧
      c.args = raws.map Bytes.trimSpace := by
  rw [parse_eq] at h
  obtain ⟨w'', hsrc, hw'', -⟩ := Bytes.exists_of_trimEnd Scan.isGap src
  obtain ⟨w, r, hr, hw, hskip⟩ :=
    Cursor.exists_of_skipWhile (Cursor.start (src.trimEnd Scan.isGap)) Scan.isGap
  rw [hskip] at h
  simp only at h
  split at h
  · cases h
  · next hempty =>
    have hne : Bytes.word isIdentifierStart isIdentifierPart r ≠ [] := by
      intro hnil
      exact hempty (List.isEmpty_iff.mpr hnil)
    obtain ⟨hname, rest, hrest, -⟩ :=
      Bytes.isWord_of_word isIdentifierPart_of_isIdentifierStart hne
    have hword : Bytes.identifier r = Bytes.word isIdentifierStart isIdentifierPart r := rfl
    rw [hword] at h
    generalize Bytes.word isIdentifierStart isIdentifierPart r = name at h hname hrest
    subst hrest
    rw [Cursor.skip_append] at h
    obtain ⟨w', r', rfl, hw', hskip'⟩ := Cursor.exists_of_skipWhile
      ⟨(Cursor.start (src.trimEnd Scan.isGap)).pos + w.length + name.length, rest⟩ Scan.isGap
    rw [hskip'] at h
    obtain ⟨raws, rfl, hraws, hclosed, htrim, rfl⟩ := parseArguments_iff.mp h
    refine ⟨raws, ?_, htrim, rfl⟩
    have happ : src = w ++ (name ++ (w' ++ (arguments raws ++ w''))) := by
      have hr' : src.trimEnd Scan.isGap = w ++ (name ++ (w' ++ arguments raws)) := hr
      rw [hr'] at hsrc
      simpa using hsrc
    rw [happ]
    exact .intro hw hname hw' hraws hclosed hw''

/-- **A text holds a call exactly if it is written as one**, without empty arguments. -/
theorem parse_iff {src : Bytes} {c : Call} :
    parse src = .ok c ↔ ∃ raws, Written c.name raws src ∧ (∀ r ∈ raws, r.trimSpace ≠ []) ∧
      c.args = raws.map Bytes.trimSpace := by
  refine ⟨written_of_parse, ?_⟩
  rintro ⟨raws, hwritten, hraws, hargs⟩
  rw [parse_of_written hwritten hraws, ← hargs]

end Call

end LayoutMarkup

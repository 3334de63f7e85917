import LayoutMarkup.Proofs.Derivations

/-!
# Proofs/Spelling — the canonical form of an expression

The canonical form consists of the lexemes `Expr.spelling`, and the expression derives from them
(`derives_spelling`).  The grammar being unambiguous, it can be read as nothing else; it may only
be nested too deeply to be read at all, since printing adds parentheses (`eq_of_parse_print`).
-/

namespace LayoutMarkup

/-- Lexemes in parentheses. -/
def Lexeme.parenthesized (ls : List Lexeme) : List Lexeme := .leftParen :: (ls ++ [.rightParen])

/-- The text goes on with nothing that a number or a name could contain. -/
def Bytes.Breaks (s : Bytes) : Prop :=
  ∀ b ∈ s.head?, b < 0x80 ∧ isIdentifierPart (Char.ofNat b.toNat) = false

theorem Bytes.breaks_cons {b : UInt8} (h : b < 0x80)
    (hb : isIdentifierPart (Char.ofNat b.toNat) = false) (s : Bytes) : Bytes.Breaks (b :: s) := by
  intro x hx
  obtain rfl : b = x := by simpa using hx
  exact ⟨h, hb⟩

/-- An identifier ends where a lexeme has to end. -/
theorem Bytes.Breaks.stops {s : Bytes} (h : s.Breaks) : s.Stops isIdentifierPart := by
  cases s with
  | nil => exact Bytes.stops_nil _
  | cons b s => exact Bytes.stops_cons (h b rfl).1 (h b rfl).2 s

/-- A lexeme that stands alone stands before anything that has to end it. -/
theorem Lexeme.Stands.of_breaks {l : Lexeme} {rest : Bytes} (h : l.Stands [])
    (hrest : rest.Breaks) : l.Stands rest := by
  have hdigit : ∀ b ∈ rest.head?, Bytes.isDigit b = false := by
    intro b hb
    by_contra hd
    have hpart := (by decide : ∀ b ∈ digitBytes, isIdentifierPart (Char.ofNat b.toNat) = true) b
      (mem_digitBytes (by simpa using hd))
    rw [(hrest b hb).2] at hpart
    cases hpart
  cases h with
  | whole hne hds =>
    refine .whole hne hds fun b hb => ⟨hdigit b hb, ?_⟩
    rintro rfl
    exact absurd (hrest _ hb).2 (by decide)
  | decimal hds hne hfs => exact .decimal hds hne hfs hdigit
  | name hs => exact .name hs hrest.stops
  | operator hop => exact .operator hop
  | leftParen => exact .leftParen
  | rightParen => exact .rightParen

namespace Expr

/-- The lexemes of the canonical form. -/
def spelling : Expr → List Lexeme
  | number text => [.number text]
  | name text => [.name text]
  | neg e =>
    .operator .sub :: if e.groupsUnderNeg then Lexeme.parenthesized e.spelling else e.spelling
  | binary op l r =>
    (if l.groupsOnLeft op then Lexeme.parenthesized l.spelling else l.spelling) ++
      .operator op :: if r.groupsOnRight then Lexeme.parenthesized r.spelling else r.spelling
  | call _ => []

/-- The lexemes that an expression is made of satisfy `p`, and there are no calls in it. -/
def All (p : Lexeme → Prop) : Expr → Prop
  | number text => p (.number text)
  | name text => p (.name text)
  | neg e => e.All p
  | binary op l r => p (.operator op) ∧ l.All p ∧ r.All p
  | call _ => False

/-- An arithmetic expression: numbers, names and operators are lexemes of expressions. -/
abbrev Arithmetic (e : Expr) : Prop := e.All (·.Stands [])

/-! ## The canonical form consists of the lexemes -/

theorem lexes_parenthesized {s rest : Bytes} {ls ms : List Lexeme}
    (h : ∀ {rest : Bytes} {ms : List Lexeme}, rest.Breaks → Lexes rest ms →
      Lexes (s ++ rest) (ls ++ ms)) (hrest : Lexes rest ms) :
    Lexes (s.parenthesized ++ rest) (Lexeme.parenthesized ls ++ ms) := by
  have hclose : Lexes (Bytes.utf8 ")" ++ rest) (.rightParen :: ms) :=
    .cons (w := []) (by simp) .rightParen hrest
  have hbreak : Bytes.Breaks (Bytes.utf8 ")" ++ rest) :=
    Bytes.breaks_cons (by decide) (by decide) rest
  have hopen : Lexes (Bytes.utf8 "(" ++ (s ++ (Bytes.utf8 ")" ++ rest)))
      (.leftParen :: (ls ++ .rightParen :: ms)) :=
    .cons (w := []) (by simp) .leftParen (h hbreak hclose)
  simpa [Bytes.parenthesized, Lexeme.parenthesized] using hopen

/-- An operand, whether or not it is put in parentheses. -/
theorem lexes_grouped {s rest : Bytes} {ls ms : List Lexeme} (grouped : Bool)
    (h : ∀ {rest : Bytes} {ms : List Lexeme}, rest.Breaks → Lexes rest ms →
      Lexes (s ++ rest) (ls ++ ms)) (hbreak : rest.Breaks) (hrest : Lexes rest ms) :
    Lexes ((if grouped then s.parenthesized else s) ++ rest)
      ((if grouped then Lexeme.parenthesized ls else ls) ++ ms) := by
  cases grouped with
  | true => exact lexes_parenthesized h hrest
  | false => exact h hbreak hrest

theorem lexes_operator {op : Operator} (hop : (Lexeme.operator op).Stands []) {rest : Bytes}
    {ms : List Lexeme} (hrest : Lexes rest ms) :
    Lexes (op.symbol ++ rest) (.operator op :: ms) := by
  cases hop with
  | operator hop => exact .cons (w := []) (by simp) (.operator hop) hrest

theorem lexes_space {rest : Bytes} {ms : List Lexeme} (hrest : Lexes rest ms) :
    Lexes (Bytes.utf8 " " ++ rest) ms := by
  have hgap : ∀ b ∈ Bytes.utf8 " ", Scan.isGap b = true := by decide
  cases hrest with
  | nil hw => exact .nil (List.forall_mem_append.mpr ⟨hgap, hw⟩)
  | cons hw hl hls =>
    rw [← List.append_assoc]
    exact .cons (List.forall_mem_append.mpr ⟨hgap, hw⟩) hl hls

/-- **What is printed consists of the lexemes of the expression.** -/
theorem lexes_print {e : Expr} (he : e.Arithmetic) :
    ∀ {rest : Bytes} {ms : List Lexeme}, rest.Breaks → Lexes rest ms →
      Lexes (e.print ++ rest) (e.spelling ++ ms) := by
  induction e with
  | number text =>
    intro rest ms hbreak hrest
    exact .cons (w := []) (by simp) (he.of_breaks hbreak) hrest
  | name text =>
    intro rest ms hbreak hrest
    exact .cons (w := []) (by simp) (he.of_breaks hbreak) hrest
  | call c => cases he
  | neg e ih =>
    intro rest ms hbreak hrest
    have hsign : (Lexeme.operator .sub).Stands [] := .operator rfl
    rw [print, spelling, List.append_assoc, List.cons_append]
    exact lexes_operator hsign (lexes_grouped _ (ih he) hbreak hrest)
  | binary op l r ihl ihr =>
    obtain ⟨hop, hl, hr⟩ := he
    intro rest ms hbreak hrest
    have hright := lexes_grouped r.groupsOnRight (ihr hr) hbreak hrest
    have hbehind := lexes_space (lexes_operator hop (lexes_space hright))
    have hspace (s : Bytes) : Bytes.Breaks (Bytes.utf8 " " ++ s) :=
      Bytes.breaks_cons (by decide) (by decide) s
    have := lexes_grouped (l.groupsOnLeft op) (ihl hl) (hspace _) hbehind
    simpa only [print, spelling, List.append_assoc, List.cons_append] using this

theorem lexes_spelling {e : Expr} (he : e.Arithmetic) : Lexes e.print e.spelling := by
  have h : Lexes (e.print ++ []) (e.spelling ++ []) :=
    lexes_print he (by simp [Bytes.Breaks]) (.nil (by simp))
  rwa [List.append_nil, List.append_nil] at h

/-! ## …and these derive it -/

/-- What derives at a depth derives deeper. -/
theorem Derives.mono {k k' : Nat} {g : Goal} {ls : List Lexeme} {e : Expr} (h : Derives k g ls e)
    (hk : k ≤ k') : Derives k' g ls e := by
  induction h generalizing k' with
  | number =>
    obtain _ | k' := k'
    · omega
    · exact .number
  | name =>
    obtain _ | k' := k'
    · omega
    · exact .name
  | neg _ ih =>
    obtain _ | k' := k'
    · omega
    · exact .neg (ih (by omega))
  | paren _ ih =>
    obtain _ | k' := k'
    · omega
    · exact .paren (ih (by omega))
  | chain _ _ ihleft ihrest => exact .chain (ihleft hk) (ihrest hk)
  | done => exact .done
  | more hop _ _ ihright ihrest => exact .more hop (ihright hk) (ihrest hk)

/-- A chain can be made longer at its end. -/
theorem Derives.snoc_rest {k : Nat} {l : Level} {left : Expr} {op : Operator}
    {ts us : List Lexeme} {e right : Expr} (h : Derives k (.rest l left) ts e)
    (hop : l.accepts op = true) (hright : Derives k l.operand us right) :
    Derives k (.rest l left) (ts ++ .operator op :: us) (.binary op e right) := by
  generalize hg : Goal.rest l left = g at h
  induction h generalizing left with
  | done =>
    cases hg
    rw [List.nil_append, ← List.append_nil us]
    exact .more hop hright .done
  | more hop' hright' _ _ ih =>
    cases hg
    rw [List.cons_append, List.append_assoc]
    exact .more hop' hright' (ih hright rfl)
  | _ => cases hg

/-- A chain is made longer by one operand. -/
theorem Derives.snoc {k : Nat} {l : Level} {op : Operator} {ts us : List Lexeme} {e right : Expr}
    (h : Derives k (.chain l) ts e) (hop : l.accepts op = true)
    (hright : Derives k l.operand us right) :
    Derives k (.chain l) (ts ++ .operator op :: us) (.binary op e right) := by
  cases h with
  | chain hleft hrest =>
    rw [List.append_assoc]
    exact .chain hleft (hrest.snoc_rest hop hright)

/-- A single operand is a chain. -/
theorem Derives.single {k : Nat} {l : Level} {ts : List Lexeme} {e : Expr}
    (h : Derives k l.operand ts e) : Derives k (.chain l) ts e := by
  have := h.chain .done
  rwa [List.append_nil] at this

/-- A factor is a chain of one. -/
theorem Derives.factor_chain {k : Nat} (l : Level) {ts : List Lexeme} {e : Expr}
    (h : Derives k .factor ts e) : Derives k (.chain l) ts e := by
  cases l with
  | product => exact h.single
  | sum => exact Derives.single (Derives.single (l := .product) h)

theorem Derives.sum {k : Nat} {l : Level} {ts : List Lexeme} {e : Expr}
    (h : Derives k (.chain l) ts e) : Derives k (.chain .sum) ts e := by
  cases l with
  | product => exact h.single
  | sum => exact h

/-- The chain that an operator belongs to. -/
def levelOf (op : Operator) : Level := if isAdditive op then .sum else .product

/-- What an expression is read as: a chain if it is binary, else a factor. -/
def goal : Expr → Goal
  | binary op _ _ => .chain (levelOf op)
  | _ => .factor

/-- An arithmetic operator belongs to the chains of its level. -/
theorem accepts_levelOf {op : Operator} (h : (Lexeme.operator op).Stands []) :
    (levelOf op).accepts op = true := by
  cases h with
  | operator h =>
    cases op with
    | other => cases h
    | _ => rfl

theorem isAdditive_eq (op : Operator) : isAdditive op = (op.strength == 1) := by
  cases op <;> rfl

/-- Operators that bind just as strongly make one chain. -/
theorem levelOf_eq {op op' : Operator} (h : op'.strength = op.strength) :
    levelOf op' = levelOf op := by
  rw [levelOf, levelOf, isAdditive_eq, isAdditive_eq, h]

/-- A chain in parentheses is a factor, one level deeper. -/
theorem Derives.parenthesized {k : Nat} {l : Level} {ts : List Lexeme} {e : Expr}
    (h : Derives k (.chain l) ts e) : Derives (k + 1) .factor (Lexeme.parenthesized ts) e :=
  .paren h.sum

theorem Derives.operand {k : Nat} (l : Level) {ts : List Lexeme} {e : Expr}
    (h : Derives k .factor ts e) : Derives k l.operand ts e := by
  cases l with
  | product => exact h
  | sum => exact h.factor_chain .product

theorem Derives.goal_sum {k : Nat} {ts : List Lexeme} {e : Expr} (h : Derives k e.goal ts e) :
    Derives k (.chain .sum) ts e := by
  cases e with
  | binary => exact Derives.sum h
  | _ => exact Derives.factor_chain .sum h

/-- An operand that is put in parentheses if it is binary. -/
theorem derives_grouped {k : Nat} {e : Expr} (h : Derives k e.goal e.spelling e) {grouped : Bool}
    (hgrouped : e.operator?.isSome = true → grouped = true) :
    Derives (k + 1) .factor
      (if grouped then Lexeme.parenthesized e.spelling else e.spelling) e := by
  cases grouped with
  | true => exact h.goal_sum.parenthesized
  | false =>
    cases e with
    | binary => cases hgrouped rfl
    | _ => exact h.mono (Nat.le_succ k)

/-- **An expression derives from the lexemes of its canonical form.**  Each level adds at most a
minus and a pair of parentheses. -/
theorem derives_spelling {e : Expr} (he : e.Arithmetic) :
    Derives (2 * e.height) e.goal e.spelling e := by
  induction e with
  | number text => exact .number
  | name text => exact .name
  | call c => cases he
  | neg e ih =>
    exact .neg (derives_grouped (ih he) (by cases e <;> simp [operator?, groupsUnderNeg]))
  | binary op l r ihl ihr =>
    obtain ⟨hop, hl, hr⟩ := he
    have hk : 2 * l.height + 1 ≤ 2 * (binary op l r).height ∧
        2 * r.height + 1 ≤ 2 * (binary op l r).height := by
      simp only [height]
      omega
    have hright : Derives (2 * (binary op l r).height) (levelOf op).operand
        (if r.groupsOnRight then Lexeme.parenthesized r.spelling else r.spelling) r :=
      ((derives_grouped (ihr hr) id).mono hk.2).operand _
    refine Derives.snoc ?_ (accepts_levelOf hop) hright
    -- The left operand goes without parentheses if it is a chain of the same kind.
    by_cases hsame : ∃ op' l₁ l₂, l = binary op' l₁ l₂ ∧ op'.strength = op.strength
    · obtain ⟨op', l₁, l₂, rfl, hs⟩ := hsame
      have hleft := (ihl hl).mono (Nat.le_of_succ_le hk.1)
      rw [goal, levelOf_eq hs] at hleft
      simpa [groupsOnLeft, operator?, hs] using hleft
    · have hgrouped : l.operator?.isSome = true → l.groupsOnLeft op = true := by
        intro hsome
        cases l with
        | binary op' l₁ l₂ =>
          have : op'.strength ≠ op.strength := fun h => hsame ⟨op', l₁, l₂, rfl, h⟩
          simpa [groupsOnLeft, operator?] using this
        | _ => cases hsome
      exact ((derives_grouped (ihl hl) hgrouped).mono hk.1).factor_chain _

/-! ## What a parser makes of it -/

/-- Each lexeme of a text can stand alone. -/
theorem Lexes.stands {s : Bytes} {ls : List Lexeme} (h : Lexes s ls) : ∀ t ∈ ls, t.Stands [] := by
  induction h with
  | nil => simp
  | cons _ hl _ ih => exact List.forall_mem_cons.mpr ⟨hl.nil, ih⟩

/-- What has been read before the goal is made of lexemes that satisfy `p`. -/
def Goal.Follows (p : Lexeme → Prop) : Goal → Prop
  | rest _ left => left.All p
  | _ => True

theorem Level.operand_follows (l : Level) (p : Lexeme → Prop) : l.operand.Follows p := by
  cases l <;> trivial

/-- What derives from lexemes is made of them. -/
theorem Derives.all {p : Lexeme → Prop} {k : Nat} {g : Goal} {ls : List Lexeme} {e : Expr}
    (h : Derives k g ls e) (hls : ∀ t ∈ ls, p t) (hg : g.Follows p) : e.All p := by
  induction h with
  | number => exact hls _ List.mem_cons_self
  | name => exact hls _ List.mem_cons_self
  | neg _ ih => exact ih (List.forall_mem_cons.mp hls).2 trivial
  | paren _ ih =>
    have := (List.forall_mem_append.mp (List.forall_mem_cons.mp hls).2).1
    exact ih this trivial
  | @chain _ l _ _ _ _ _ _ ihleft ihrest =>
    obtain ⟨hts, hus⟩ := List.forall_mem_append.mp hls
    exact ihrest hus (ihleft hts (l.operand_follows p))
  | done => exact hg
  | @more _ l _ _ _ _ _ _ _ _ _ ihright ihrest =>
    obtain ⟨hop, hls⟩ := List.forall_mem_cons.mp hls
    obtain ⟨hts, hus⟩ := List.forall_mem_append.mp hls
    exact ihrest hus ⟨hop, hg, ihright hts (l.operand_follows p)⟩

theorem forall_mem_parenthesized {p : Lexeme → Prop} {ls : List Lexeme} (h : ∀ l ∈ ls, p l)
    (hopen : p .leftParen) (hclose : p .rightParen) : ∀ l ∈ Lexeme.parenthesized ls, p l :=
  List.forall_mem_cons.mpr ⟨hopen, List.forall_mem_append.mpr ⟨h, by simpa using hclose⟩⟩

/-- The canonical form adds nothing but parentheses to the lexemes that it is made of. -/
theorem All.spelling {p : Lexeme → Prop} {e : Expr} (h : e.All p) (hopen : p .leftParen)
    (hclose : p .rightParen) (hsub : p (.operator .sub)) : ∀ l ∈ e.spelling, p l := by
  have hgroup (grouped : Bool) {ls : List Lexeme} (hls : ∀ l ∈ ls, p l) :
      ∀ l ∈ if grouped then Lexeme.parenthesized ls else ls, p l := by
    cases grouped with
    | true => exact forall_mem_parenthesized hls hopen hclose
    | false => exact hls
  induction e with
  | number text => exact List.forall_mem_singleton.mpr h
  | name text => exact List.forall_mem_singleton.mpr h
  | call c => cases h
  | neg e ih => exact List.forall_mem_cons.mpr ⟨hsub, hgroup _ (ih h)⟩
  | binary op l r ihl ihr =>
    obtain ⟨hop, hl, hr⟩ := h
    exact List.forall_mem_append.mpr
      ⟨hgroup _ (ihl hl), List.forall_mem_cons.mpr ⟨hop, hgroup _ (ihr hr)⟩⟩

/-- What is read is arithmetic. -/
theorem arithmetic_of_parse {src : Bytes} {e : Expr} (h : parse src = .ok e) : e.Arithmetic := by
  obtain ⟨ls, hlexes, hderives, -⟩ := parse_iff_derives.mp h
  exact hderives.all (Lexes.stands hlexes) trivial

/-- **The canonical form can be read as nothing else.** -/
theorem eq_of_parse_print {e e' : Expr} (he : e.Arithmetic) (h : parse e.print = .ok e') :
    e' = e := by
  obtain ⟨ls, hlexes, hderives, -⟩ := parse_iff_derives.mp h
  have hspelling := lexes_spelling he
  obtain rfl : ls = e.spelling := by
    rw [← (Scan.complete_iff.mpr hlexes).1, ← (Scan.complete_iff.mpr hspelling).1]
  exact hderives.unique (derives_spelling he).goal_sum

end Expr

end LayoutMarkup

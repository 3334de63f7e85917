import LayoutMarkup.Proofs.Spelling

/-!
# Proofs/Nesting — how deep expressions may be nested

The grammar of expressions knows no limits (`Reads`); it tells of each number and name how many
minuses and parentheses stand around it.  Three theorems:

* `parse_iff_reads` — a text holds an expression exactly if the grammar reads its lexemes as one,
  with at most 255 minuses and parentheses around each number and name, and with no binary
  expression higher than 256.
* `parse_print` — the canonical form of an expression is read as this expression, or else it is
  nested too deeply; up to a height of 128 it is not.
* `height_of_parse` — the two limits leave room for a height of 510: that of a chain is bounded, but
  the minuses before it are not counted in.
-/

namespace LayoutMarkup

namespace Expr

/-! ## The grammar without limits -/

/-- What the grammar has rules for. -/
inductive Phrase where
  | sum
  | product
  | factor

/-- The lexemes are read as an expression.  Of each number and name in them, the list says how many
minuses and parentheses stand around it.

    sum     = product { ("+" | "-") product }
    product = factor { ("*" | "/") factor }
    factor  = "-" factor | number | name | "(" sum ")"

A repetition groups to the left: what stands before its last operator is the left operand. -/
inductive Reads : Phrase → List Lexeme → Expr → List Nat → Prop
  | number {text : Bytes} : Reads .factor [.number text] (.number text) [0]
  | name {text : Bytes} : Reads .factor [.name text] (.name text) [0]
  | neg {ts : List Lexeme} {e : Expr} {ds : List Nat} (he : Reads .factor ts e ds) :
      Reads .factor (.operator .sub :: ts) (.neg e) (ds.map (· + 1))
  | paren {ts : List Lexeme} {e : Expr} {ds : List Nat} (he : Reads .sum ts e ds) :
      Reads .factor (.leftParen :: (ts ++ [.rightParen])) e (ds.map (· + 1))
  | ofFactor {ts : List Lexeme} {e : Expr} {ds : List Nat} (he : Reads .factor ts e ds) :
      Reads .product ts e ds
  | times {op : Operator} {ts us : List Lexeme} {left right : Expr} {ds ds' : List Nat}
      (hleft : Reads .product ts left ds) (hop : isMultiplicative op = true)
      (hright : Reads .factor us right ds') :
      Reads .product (ts ++ .operator op :: us) (.binary op left right) (ds ++ ds')
  | ofProduct {ts : List Lexeme} {e : Expr} {ds : List Nat} (he : Reads .product ts e ds) :
      Reads .sum ts e ds
  | plus {op : Operator} {ts us : List Lexeme} {left right : Expr} {ds ds' : List Nat}
      (hleft : Reads .sum ts left ds) (hop : isAdditive op = true)
      (hright : Reads .product us right ds') :
      Reads .sum (ts ++ .operator op :: us) (.binary op left right) (ds ++ ds')

/-- The heights of the binary expressions in an expression. -/
def binaryHeights : Expr → List Nat
  | number _ | name _ | call _ => []
  | neg e => e.binaryHeights
  | binary op l r => (binary op l r).height :: (l.binaryHeights ++ r.binaryHeights)

theorem bounded_iff {e : Expr} : e.Bounded ↔ ∀ h ∈ e.binaryHeights, h ≤ 256 := by
  induction e with
  | number | name | call => simp [Bounded, binaryHeights]
  | neg e ih => exact ih
  | binary op l r ihl ihr =>
    rw [Bounded, binaryHeights, List.forall_mem_cons, List.forall_mem_append, ihl, ihr]
    rfl

/-- Something stands at the bottom of every phrase. -/
theorem Reads.ne_nil {p : Phrase} {ls : List Lexeme} {e : Expr} {ds : List Nat}
    (h : Reads p ls e ds) : ds ≠ [] := by
  induction h with
  | number | name => simp
  | neg _ ih | paren _ ih => simpa using ih
  | ofFactor _ ih | ofProduct _ ih => exact ih
  | times _ _ _ ih | plus _ _ _ ih => simp [ih]

/-- One more minus or pair of parentheses stands around what is nested less deeply. -/
theorem forall_lt_of_map_succ {ds : List Nat} {k : Nat} (hne : ds ≠ [])
    (h : ∀ d ∈ ds.map (· + 1), d < k) : ∃ k', k = k' + 1 ∧ ∀ d ∈ ds, d < k' := by
  rw [List.forall_mem_map] at h
  obtain ⟨d, ds, rfl⟩ := List.exists_cons_of_ne_nil hne
  have hd := h d List.mem_cons_self
  refine ⟨k - 1, by omega, fun d hd => ?_⟩
  have := h d hd
  omega

/-! ## The grammar and the limits -/

/-- The phrase that a chain is. -/
def Level.phrase : Level → Phrase
  | sum => .sum
  | product => .product

/-- The phrase that the operands of a chain are. -/
def Level.operandPhrase : Level → Phrase
  | sum => .product
  | product => .factor

/-- What is to be read for a phrase. -/
def Phrase.goal : Phrase → Goal
  | sum => .chain .sum
  | product => .chain .product
  | factor => .factor

theorem Reads.single {l : Level} {ts : List Lexeme} {e : Expr} {ds : List Nat}
    (h : Reads l.operandPhrase ts e ds) : Reads l.phrase ts e ds :=
  match l with
  | .sum => .ofProduct h
  | .product => .ofFactor h

theorem Reads.snoc {l : Level} {op : Operator} {ts us : List Lexeme} {left right : Expr}
    {ds ds' : List Nat} (hleft : Reads l.phrase ts left ds) (hop : l.accepts op = true)
    (hright : Reads l.operandPhrase us right ds') :
    Reads l.phrase (ts ++ .operator op :: us) (.binary op left right) (ds ++ ds') :=
  match l with
  | .sum => .plus hleft hop hright
  | .product => .times hleft hop hright

/-- The phrase is read within less than `k` minuses and parentheses. -/
def ReadsWithin (k : Nat) (p : Phrase) (ls : List Lexeme) (e : Expr) : Prop :=
  ∃ ds, Reads p ls e ds ∧ ∀ d ∈ ds, d < k

/-- What a derivation says about phrases: the rest of a chain goes on with any phrase that is read
as its left part. -/
def Goal.ReadsWithin (k : Nat) : Goal → List Lexeme → Expr → Prop
  | factor, ls, e => Expr.ReadsWithin k .factor ls e
  | chain l, ls, e => Expr.ReadsWithin k l.phrase ls e
  | rest l left, ls, e =>
    ∀ ts, Expr.ReadsWithin k l.phrase ts left → Expr.ReadsWithin k l.phrase (ts ++ ls) e

theorem Level.readsWithin_operand {k : Nat} {l : Level} {ls : List Lexeme} {e : Expr}
    (h : l.operand.ReadsWithin k ls e) : Expr.ReadsWithin k l.operandPhrase ls e :=
  match l with
  | .sum => h
  | .product => h

/-- A phrase inside a minus or a pair of parentheses. -/
theorem forall_map_succ_lt {ds : List Nat} {k : Nat} (h : ∀ d ∈ ds, d < k) :
    ∀ d ∈ ds.map (· + 1), d < k + 1 := by
  rw [List.forall_mem_map]
  exact fun d hd => Nat.succ_lt_succ (h d hd)

theorem readsWithin_of_derives {k : Nat} {g : Goal} {ls : List Lexeme} {e : Expr}
    (h : Derives k g ls e) : g.ReadsWithin k ls e := by
  induction h with
  | number => exact ⟨[0], .number, by simp⟩
  | name => exact ⟨[0], .name, by simp⟩
  | neg _ ih =>
    obtain ⟨ds, he, hds⟩ := ih
    exact ⟨_, .neg he, forall_map_succ_lt hds⟩
  | paren _ ih =>
    obtain ⟨ds, he, hds⟩ := ih
    exact ⟨_, .paren he, forall_map_succ_lt hds⟩
  | chain _ _ ihleft ihrest =>
    obtain ⟨ds, hleft, hds⟩ := Level.readsWithin_operand ihleft
    exact ihrest _ ⟨ds, hleft.single, hds⟩
  | done =>
    intro ts hts
    rwa [List.append_nil]
  | @more _ l op us vs left right _ hop _ _ ihright ihrest =>
    rintro ts ⟨ds, hts, hds⟩
    obtain ⟨ds', hright, hds'⟩ := Level.readsWithin_operand ihright
    have hnext := ihrest (ts ++ .operator op :: us)
      ⟨ds ++ ds', hts.snoc hop hright, List.forall_mem_append.mpr ⟨hds, hds'⟩⟩
    rwa [List.append_assoc, List.cons_append] at hnext

theorem Reads.derives {p : Phrase} {ls : List Lexeme} {e : Expr} {ds : List Nat}
    (h : Reads p ls e ds) {k : Nat} (hds : ∀ d ∈ ds, d < k) : Derives k p.goal ls e := by
  induction h generalizing k with
  | number =>
    obtain ⟨k, rfl⟩ := Nat.exists_eq_succ_of_ne_zero (Nat.ne_zero_of_lt (hds 0 (by simp)))
    exact .number
  | name =>
    obtain ⟨k, rfl⟩ := Nat.exists_eq_succ_of_ne_zero (Nat.ne_zero_of_lt (hds 0 (by simp)))
    exact .name
  | neg he ih =>
    obtain ⟨k, rfl, hinner⟩ := forall_lt_of_map_succ he.ne_nil hds
    exact .neg (ih hinner)
  | paren he ih =>
    obtain ⟨k, rfl, hinner⟩ := forall_lt_of_map_succ he.ne_nil hds
    exact .paren (ih hinner)
  | ofFactor _ ih => exact Derives.single (l := .product) (ih hds)
  | ofProduct _ ih => exact Derives.single (l := .sum) (ih hds)
  | times _ hop _ ihleft ihright =>
    obtain ⟨hds, hds'⟩ := List.forall_mem_append.mp hds
    exact Derives.snoc (l := .product) (ihleft hds) hop (ihright hds')
  | plus _ hop _ ihleft ihright =>
    obtain ⟨hds, hds'⟩ := List.forall_mem_append.mp hds
    exact Derives.snoc (l := .sum) (ihleft hds) hop (ihright hds')

/-- **A text holds an expression exactly if the grammar reads its lexemes as one within the
limits**: each number and name stands inside at most 255 minuses and parentheses, and no binary
expression is higher than 256.  The lexemes of a text are those that scanning it to its end gives
(`Scan.complete_iff`). -/
theorem parse_iff_reads {src : Bytes} {e : Expr} :
    parse src = .ok e ↔ ∃ ls ds, Lexes src ls ∧ Reads .sum ls e ds ∧ (∀ d ∈ ds, d ≤ 255) ∧
      ∀ h ∈ e.binaryHeights, h ≤ 256 := by
  rw [parse_iff_derives]
  constructor
  · rintro ⟨ls, hlexes, hderives, hbounded⟩
    obtain ⟨ds, hreads, hds⟩ := readsWithin_of_derives hderives
    exact ⟨ls, ds, hlexes, hreads, fun d hd => Nat.le_of_lt_succ (hds d hd),
      bounded_iff.mp hbounded⟩
  · rintro ⟨ls, ds, hlexes, hreads, hds, hheights⟩
    exact ⟨ls, hlexes, hreads.derives fun d hd => Nat.lt_succ_of_le (hds d hd),
      bounded_iff.mpr hheights⟩

/-! ## What the parser makes of a phrase that is too deep -/

/-- The result is `a`, or else that something is nested too deeply. -/
def OrTooDeep {α : Type} (r : Except SyntaxError α) (a : α) : Prop :=
  r = .ok a ∨ ∃ pos, r = .error ⟨pos, .tooDeep⟩

section

variable {α β : Type} {r : Except SyntaxError α} {a : α} {b : β}

theorem orTooDeep_ok : OrTooDeep (.ok a) a := .inl rfl

theorem orTooDeep_error (pos : Nat) : OrTooDeep (.error ⟨pos, .tooDeep⟩) a := .inr ⟨pos, rfl⟩

theorem OrTooDeep.bind (h : OrTooDeep r a) {f : α → Except SyntaxError β}
    (hf : OrTooDeep (f a) b) : OrTooDeep (r.bind f) b := by
  obtain rfl | ⟨pos, rfl⟩ := h
  · exact hf
  · exact orTooDeep_error pos

theorem OrTooDeep.map (h : OrTooDeep r a) (f : α → β) : OrTooDeep (r.map f) (f a) := by
  obtain rfl | ⟨pos, rfl⟩ := h
  · exact orTooDeep_ok
  · exact orTooDeep_error pos

end

/-- **What derives is read, or else it is nested too deeply**, wherever nothing follows that goes on
with it. -/
theorem orTooDeep_of_derives (ending : Ending) {k : Nat} {g : Goal} {ls : List Lexeme} {e : Expr}
    (h : Derives k g ls e) :
    ∀ (k : Nat) (ts us : List PlacedLexeme), ts.map (·.lexeme) = ls → g.Stops (us.map (·.lexeme)) →
      OrTooDeep (g.parse ending k (ts ++ us)) (e, us) := by
  have hzero (ts : List PlacedLexeme) (r : Expr × List PlacedLexeme) :
      OrTooDeep (Goal.factor.parse ending 0 ts) r := orTooDeep_error (nextPos ending ts)
  induction h with
  | number =>
    rintro (_ | k) ts us hts _
    · exact hzero _ _
    · obtain ⟨⟨_, pos⟩, rfl, rfl⟩ := by simpa [List.map_eq_singleton_iff] using hts
      exact orTooDeep_ok
  | name =>
    rintro (_ | k) ts us hts _
    · exact hzero _ _
    · obtain ⟨⟨_, pos⟩, rfl, rfl⟩ := by simpa [List.map_eq_singleton_iff] using hts
      exact orTooDeep_ok
  | neg _ ih =>
    rintro (_ | k) ts us hts _
    · exact hzero _ _
    · obtain ⟨⟨_, pos⟩, vs, rfl, rfl, hvs⟩ := List.map_eq_cons_iff.mp hts
      rw [List.cons_append, Goal.parse_neg]
      exact (ih k vs us hvs trivial).map _
  | paren _ ih =>
    rintro (_ | k) ts us hts _
    · exact hzero _ _
    · obtain ⟨⟨_, pos⟩, vs, rfl, rfl, hvs⟩ := List.map_eq_cons_iff.mp hts
      obtain ⟨vs, ws, rfl, hinner, hws⟩ := List.map_eq_append_iff.mp hvs
      obtain ⟨⟨_, pos'⟩, rfl, rfl⟩ := by simpa [List.map_eq_singleton_iff] using hws
      rw [List.cons_append, List.append_assoc, Goal.parse_paren]
      refine (ih k vs _ hinner ?_).bind orTooDeep_ok
      simp [Goal.Stops, Level.Stops, Level.continues]
  | chain _ hrest ihleft ihrest =>
    intro k ts us hts hstop
    obtain ⟨ts, vs, rfl, rfl, rfl⟩ := List.map_eq_append_iff.mp hts
    rw [List.append_assoc, Goal.parse_chain]
    refine (ihleft k ts _ rfl ?_).bind (ihrest k vs us rfl hstop)
    rw [List.map_append]
    exact stops_operand hrest hstop
  | done =>
    intro k ts us hts hstop
    obtain rfl := List.map_eq_nil_iff.mp hts
    refine .inl (Goal.parse_rest_done fun t ht => Level.Stops.continues hstop t.lexeme ?_)
    rw [List.head?_map]
    exact Option.mem_map_of_mem _ ht
  | more hop _ hrest ihright ihrest =>
    intro k ts us hts hstop
    obtain ⟨⟨_, pos⟩, vs, rfl, rfl, hvs⟩ := List.map_eq_cons_iff.mp hts
    obtain ⟨vs, ws, rfl, rfl, rfl⟩ := List.map_eq_append_iff.mp hvs
    rw [List.cons_append, List.append_assoc, Goal.parse_rest_more hop]
    refine (ihright k vs _ rfl ?_).bind ?_
    · rw [List.map_append]
      exact stops_operand hrest hstop
    · -- The chain so far may be too high.
      dsimp only
      split
      · exact orTooDeep_error pos
      · exact ihrest k ws us rfl hstop

theorem orTooDeep_of_lexes {src : Bytes} {k : Nat} {ls : List Lexeme} {e : Expr}
    (hlexes : Lexes src ls) (h : Derives k (.chain .sum) ls e) : OrTooDeep (parse src) e := by
  obtain ⟨hls, n, hn⟩ := Scan.complete_iff.mpr hlexes
  have hread := orTooDeep_of_derives (Scan.ofText src).ending h maxDepth
    (Scan.ofText src).lexemes [] hls (Level.stops_nil .sum)
  rw [List.append_nil] at hread
  rw [parse_eq_bind]
  refine hread.bind ?_
  rw [hn]
  exact orTooDeep_ok

/-! ## Reading the canonical form -/

theorem bounded_of_height {e : Expr} (h : e.height ≤ maxDepth) : e.Bounded := by
  induction e with
  | number | name | call => trivial
  | neg e ih => exact ih (Nat.le_of_succ_le h)
  | binary op l r ihl ihr =>
    have hl : l.height ≤ maxDepth := by
      simp only [height] at h
      omega
    have hr : r.height ≤ maxDepth := by
      simp only [height] at h
      omega
    exact ⟨h, ihl hl, ihr hr⟩

/-- **The canonical form of an expression is read as this expression**, or else refused for being
nested too deeply.  Up to a height of 128 it is read. -/
theorem parse_print {e : Expr} (he : e.Arithmetic) :
    (parse e.print = .ok e ∨ ∃ err, parse e.print = .error err ∧
        err.fault.message = Bytes.utf8 "expression nested too deeply") ∧
      (e.height ≤ 128 → parse e.print = .ok e) := by
  have hlexes := lexes_spelling he
  have hderives := (derives_spelling he).goal_sum
  constructor
  · obtain h | ⟨pos, h⟩ := orTooDeep_of_lexes hlexes hderives
    · exact .inl h
    · exact .inr ⟨_, h, rfl⟩
  · intro hheight
    have hdepth : 2 * e.height ≤ maxDepth := Nat.mul_le_mul_left 2 hheight
    have hbounded : e.Bounded := bounded_of_height (le_trans hheight (by decide))
    exact parse_iff_derives.mpr ⟨e.spelling, hlexes, hderives.mono hdepth, hbounded⟩

/-- The minus before the difference comes with parentheses, the one inside it without. -/
theorem parse_print_grouped :
    ∃ e : Expr, e.Arithmetic ∧ e.height ≤ 128 ∧ e.print = Bytes.utf8 "-(-x - (.5 * b.c))" ∧
      parse e.print = .ok e := by
  have hsrc : parse (Bytes.utf8 "-(-x-(.5*b.c))")
      = .ok (neg (binary .sub (neg (name (Bytes.utf8 "x")))
          (binary .mul (number (Bytes.utf8 ".5")) (name (Bytes.utf8 "b.c"))))) := by
    decide +kernel
  have he := arithmetic_of_parse hsrc
  exact ⟨_, he, by decide, by decide, (parse_print he).2 (by decide)⟩

/-! ## How high an expression can be -/

/-- The number of minuses at the top of an expression. -/
def signs : Expr → Nat
  | neg e => e.signs + 1
  | _ => 0

/-- What stands behind the minuses at the top. -/
def unsigned : Expr → Expr
  | neg e => e.unsigned
  | e => e

theorem iterate_neg_unsigned (e : Expr) : neg^[e.signs] e.unsigned = e := by
  induction e with
  | neg e ih => rw [signs, unsigned, Function.iterate_succ_apply', ih]
  | _ => rfl

theorem height_eq_signs_add (e : Expr) : e.height = e.signs + e.unsigned.height := by
  induction e with
  | neg e ih => rw [signs, unsigned, height, ih, Nat.add_right_comm]
  | _ => exact (Nat.zero_add _).symm

theorem Bounded.unsigned {e : Expr} (h : e.Bounded) : e.unsigned.Bounded := by
  induction e with
  | neg e ih => exact ih h
  | _ => exact h

/-- Behind the minuses stands a binary expression, or something of a single level. -/
theorem unsigned_cases (e : Expr) :
    (∃ op l r, e.unsigned = binary op l r) ∨ e.unsigned.height = 1 := by
  induction e with
  | neg e ih => exact ih
  | binary op l r => exact .inl ⟨op, l, r, rfl⟩
  | _ => exact .inr rfl

/-- The minuses at the top stand around all that is below them, and so do the parentheses of a
binary expression that they stand before. -/
theorem Reads.signs_le {p : Phrase} {ls : List Lexeme} {e : Expr} {ds : List Nat}
    (h : Reads p ls e ds) : ∀ d ∈ ds, (p ≠ .factor ∧ e.signs = 0) ∨
      e.signs + e.unsigned.groupsOnRight.toNat ≤ d := by
  induction h with
  | number | name => exact fun d _ => .inr (Nat.zero_le d)
  | neg _ ih =>
    rw [List.forall_mem_map]
    intro d hd
    obtain ⟨hfactor, -⟩ | hle := ih d hd
    · exact absurd rfl hfactor
    · refine .inr ?_
      rw [signs, unsigned]
      omega
  | @paren _ e _ _ ih =>
    rw [List.forall_mem_map]
    intro d hd
    have hone := e.unsigned.groupsOnRight.toNat_le
    obtain ⟨-, hzero⟩ | hle := ih d hd
    · exact .inr (by omega)
    · exact .inr (Nat.le_succ_of_le hle)
  | ofFactor _ ih | ofProduct _ ih =>
    exact fun d hd => (ih d hd).imp_left fun h => ⟨nofun, h.2⟩
  | times | plus => exact fun _ _ => .inl ⟨nofun, rfl⟩

/-- **A parsed expression is higher than 256 only through the minuses before a chain.**  No chain is
higher than that, but up to 254 minuses can stand before its parentheses. -/
theorem height_of_parse {src : Bytes} {e : Expr} (h : parse src = .ok e) :
    e.height ≤ 510 ∧
      (e.height ≤ 256 ∨ ∃ n op l r, e = neg^[n] (binary op l r) ∧ 1 ≤ n ∧ n ≤ 254 ∧
        (binary op l r).height ≤ 256) := by
  obtain ⟨ls, -, hderives, hbounded⟩ := parse_iff_derives.mp h
  obtain ⟨ds, hreads, hds⟩ := readsWithin_of_derives hderives
  obtain ⟨d, hd⟩ := List.exists_mem_of_ne_nil ds hreads.ne_nil
  have hlt : d < 256 := hds d hd
  have hsigns := hreads.signs_le d hd
  have hcore := hbounded.unsigned
  have htop := iterate_neg_unsigned e
  rw [height_eq_signs_add]
  obtain ⟨op, l, r, hbinary⟩ | hone := unsigned_cases e
  · rw [hbinary] at hsigns hcore htop ⊢
    have hchain : (binary op l r).height ≤ 256 := hcore.1
    have hparen : (binary op l r).groupsOnRight.toNat = 1 := rfl
    refine ⟨by omega, ?_⟩
    obtain hzero | hpos := Nat.eq_zero_or_pos e.signs
    · exact .inl (by omega)
    · exact .inr ⟨e.signs, op, l, r, htop.symm, hpos, by omega, hchain⟩
  · exact ⟨by omega, .inl (by omega)⟩

/-- Minuses before a chain of 256 operands in parentheses. -/
def negatedChain (minuses : Nat) : Bytes :=
  List.replicate minuses '-'.toUInt8 ++ Bytes.utf8 "(1" ++
    (List.replicate 255 (Bytes.utf8 "+1")).flatten ++ Bytes.utf8 ")"

theorem exists_of_height {src : Bytes} {n : Nat} (h : (parse src).map height = .ok n) :
    ∃ e, parse src = .ok e ∧ e.height = n :=
  Except.map_eq_ok_iff.mp h

/-- So high an expression can be. -/
theorem height_of_parse_highest :
    ∃ e, parse (negatedChain 254) = .ok e ∧ e.height = 510 ∧ e.height ≤ 510 ∧
      ∃ n op l r, e = neg^[n] (binary op l r) ∧ 1 ≤ n ∧ n ≤ 254 ∧
        (binary op l r).height ≤ 256 := by
  obtain ⟨e, hparse, h510⟩ := exists_of_height (by decide +kernel :
    (parse (negatedChain 254)).map height = .ok 510)
  obtain ⟨hbound, hle | hchain⟩ := height_of_parse hparse
  · omega
  · exact ⟨e, hparse, h510, hbound, hchain⟩

/-- A single minus is enough: the chain has the greatest height that a chain can have, and the minus
adds to it. -/
theorem height_negatedChain : ∃ e, parse (negatedChain 1) = .ok e ∧ maxDepth < e.height := by
  obtain ⟨e, hparse, h257⟩ := exists_of_height (by decide +kernel :
    (parse (negatedChain 1)).map height = .ok 257)
  exact ⟨e, hparse, by rw [h257]; decide⟩

end Expr

end LayoutMarkup

import LayoutMarkup.Proofs.Lexemes

/-!
# Proofs/Derivations — the grammar of expressions

    sum     = product { ("+" | "-") product }
    product = factor { ("*" | "/") factor }
    factor  = "-" factor | number | name | "(" sum ")"

`Derives k goal ls e` says that the lexemes `ls` are read as `e` by one of these rules, with less
than `k` minuses and parentheses around each number and name.  A chain is read from the left: its
rest goes on from what has been read (`Goal.rest`).

`Expr.parse_iff_derives`: a text holds an expression exactly if it consists of lexemes from which
the expression derives within the limits.  No two expressions derive from the same lexemes
(`Derives.unique`).
-/

namespace LayoutMarkup

namespace Expr

/-! ## The grammar -/

/-- The two kinds of chains. -/
inductive Level where
  | sum
  | product
  deriving DecidableEq

/-- The operators of a chain. -/
def Level.accepts : Level → Operator → Bool
  | sum => isAdditive
  | product => isMultiplicative

/-- What is to be read. -/
inductive Goal where
  | factor
  | chain (l : Level)
  /-- The rest of a chain, given what stands before it. -/
  | rest (l : Level) (left : Expr)

/-- The operands of a chain. -/
def Level.operand : Level → Goal
  | sum => .chain .product
  | product => .factor

/-- The lexemes are read as an expression, with less than `k` factors around each other. -/
inductive Derives : Nat → Goal → List Lexeme → Expr → Prop
  | number {k : Nat} {text : Bytes} : Derives (k + 1) .factor [.number text] (.number text)
  | name {k : Nat} {text : Bytes} : Derives (k + 1) .factor [.name text] (.name text)
  | neg {k : Nat} {ts : List Lexeme} {e : Expr} (he : Derives k .factor ts e) :
      Derives (k + 1) .factor (.operator .sub :: ts) (.neg e)
  | paren {k : Nat} {ts : List Lexeme} {e : Expr} (he : Derives k (.chain .sum) ts e) :
      Derives (k + 1) .factor (.leftParen :: (ts ++ [.rightParen])) e
  | chain {k : Nat} {l : Level} {ts us : List Lexeme} {left e : Expr}
      (hleft : Derives k l.operand ts left) (hrest : Derives k (.rest l left) us e) :
      Derives k (.chain l) (ts ++ us) e
  | done {k : Nat} {l : Level} {left : Expr} : Derives k (.rest l left) [] left
  | more {k : Nat} {l : Level} {op : Operator} {ts us : List Lexeme} {left right e : Expr}
      (hop : l.accepts op = true) (hright : Derives k l.operand ts right)
      (hrest : Derives k (.rest l (.binary op left right)) us e) :
      Derives k (.rest l left) (.operator op :: (ts ++ us)) e

/-- Is no binary expression in it too high? -/
def Bounded : Expr → Prop
  | .number _ | .name _ | .call _ => True
  | .neg e => e.Bounded
  | .binary op l r => (binary op l r).height ≤ maxDepth ∧ l.Bounded ∧ r.Bounded

/-! ## The parser without its bookkeeping -/

/-- The parser for the operands of a chain. -/
def Level.parser (ending : Ending) (k : Nat) : Level → (ts : List PlacedLexeme) → Parsed ts
  | sum => Expr.level isMultiplicative (Expr.factor ending k)
  | product => Expr.factor ending k

/-- Reading a goal off the front of some lexemes. -/
def Goal.parse (ending : Ending) (k : Nat) : Goal → List PlacedLexeme →
    Except SyntaxError (Expr × List PlacedLexeme)
  | factor, ts => (Expr.factor ending k ts).map Subtype.val
  | chain l, ts => (level l.accepts (l.parser ending k) ts).map Subtype.val
  | rest l left, ts => (Expr.chain l.accepts (l.parser ending k) left ts).map Subtype.val

variable {ending : Ending} {k : Nat} {l : Level} {left : Expr}

theorem Goal.parse_operand (ts : List PlacedLexeme) :
    l.operand.parse ending k ts = (l.parser ending k ts).map Subtype.val := by
  cases l <;> rfl

/-- A chain is an operand and what is added to it. -/
theorem Goal.parse_chain (ts : List PlacedLexeme) :
    (Goal.chain l).parse ending k ts
      = (l.operand.parse ending k ts).bind fun r => (Goal.rest l r.1).parse ending k r.2 := by
  rw [Goal.parse_operand, Goal.parse, level]
  cases l.parser ending k ts with
  | error e => rfl
  | ok r =>
    obtain ⟨⟨left, rest⟩, h⟩ := r
    simp only [bind, Except.bind, Except.map, Goal.parse]
    cases Expr.chain l.accepts (l.parser ending k) left rest <;> rfl

/-- Does the lexeme go on with a chain? -/
def Level.continues (l : Level) : Lexeme → Bool
  | .operator op => l.accepts op
  | _ => false

/-- A chain ends before a lexeme that is none of its operators. -/
theorem Goal.parse_rest_done {ts : List PlacedLexeme}
    (h : ∀ t ∈ ts.head?, l.continues t.lexeme = false) :
    (Goal.rest l left).parse ending k ts = .ok (left, ts) := by
  rw [Goal.parse, Expr.chain.eq_def]
  split
  · next op pos ts =>
    have hop : l.accepts op = false := h _ rfl
    simp [hop]
    rfl
  · rfl

/-- A chain goes on with an operator and an operand, grouped to the left. -/
theorem Goal.parse_rest_more {op : Operator} {pos : Nat} {ts : List PlacedLexeme}
    (hop : l.accepts op = true) :
    (Goal.rest l left).parse ending k (⟨.operator op, pos⟩ :: ts)
      = (l.operand.parse ending k ts).bind fun r =>
          if (binary op left r.1).height > maxDepth then .error ⟨pos, .tooDeep⟩
          else (Goal.rest l (.binary op left r.1)).parse ending k r.2 := by
  rw [Goal.parse_operand, Goal.parse, Expr.chain]
  simp only [hop, if_true]
  cases l.parser ending k ts with
  | error e => rfl
  | ok r =>
    obtain ⟨⟨right, rest⟩, h⟩ := r
    simp only [bind, Except.bind, Except.map, Goal.parse]
    by_cases hheight : (binary op left right).height > maxDepth
    · simp only [hheight, if_true]
      rfl
    · simp only [hheight, if_false]
      cases Expr.chain l.accepts (l.parser ending k) (binary op left right) rest <;> rfl

theorem Level.continues_cases (l : Level) (ts : List PlacedLexeme) :
    (∃ op pos us, ts = ⟨.operator op, pos⟩ :: us ∧ l.accepts op = true) ∨
      ∀ t ∈ ts.head?, l.continues t.lexeme = false := by
  rcases ts with _ | ⟨⟨t, pos⟩, us⟩
  · exact .inr (by simp)
  · rcases hop : l.continues t with _ | _
    · exact .inr (by simpa using hop)
    · obtain ⟨op, rfl⟩ : ∃ op, t = .operator op := by
        rcases t with _ | _ | op | _ | _ <;> simp_all [Level.continues]
      exact .inl ⟨op, pos, us, rfl, hop⟩

/-- An operand leaves fewer lexemes than there were. -/
theorem Goal.length_operand {ts us : List PlacedLexeme} {e : Expr}
    (h : l.operand.parse ending k ts = .ok (e, us)) : us.length < ts.length := by
  rw [Goal.parse_operand] at h
  obtain ⟨⟨r, hlt⟩, -, rfl⟩ := Except.map_eq_ok_iff.mp h
  exact hlt

/-- **Induction along a chain**: a chain ends, an operand behind an operator cannot be read, the
chain becomes too high, or it goes on from one operand further. -/
theorem Goal.rest_induction (ending : Ending) (k : Nat) (l : Level)
    {motive : Expr → List PlacedLexeme → Except SyntaxError (Expr × List PlacedLexeme) → Prop}
    (done : ∀ left ts, (∀ t ∈ ts.head?, l.continues t.lexeme = false) →
      motive left ts (.ok (left, ts)))
    (broken : ∀ left op pos ts err, l.accepts op = true →
      l.operand.parse ending k ts = .error err →
      motive left (⟨.operator op, pos⟩ :: ts) (.error err))
    (tooHigh : ∀ left op pos ts right us, l.accepts op = true →
      l.operand.parse ending k ts = .ok (right, us) → (binary op left right).height > maxDepth →
      motive left (⟨.operator op, pos⟩ :: ts) (.error ⟨pos, .tooDeep⟩))
    (more : ∀ left op pos ts right us, l.accepts op = true →
      l.operand.parse ending k ts = .ok (right, us) → (binary op left right).height ≤ maxDepth →
      motive (.binary op left right) us ((Goal.rest l (.binary op left right)).parse ending k us) →
      motive left (⟨.operator op, pos⟩ :: ts)
        ((Goal.rest l (.binary op left right)).parse ending k us))
    (left : Expr) (ts : List PlacedLexeme) :
    motive left ts ((Goal.rest l left).parse ending k ts) := by
  obtain ⟨op, pos, ts, rfl, hop⟩ | hstop := l.continues_cases ts
  · rw [Goal.parse_rest_more hop]
    rcases hr : l.operand.parse ending k ts with err | ⟨right, us⟩
    · exact broken left op pos ts err hop hr
    · simp only [Except.bind]
      have hlt : us.length < (⟨.operator op, pos⟩ :: ts : List PlacedLexeme).length :=
        Nat.lt_succ_of_lt (Goal.length_operand hr)
      split
      · next hheight => exact tooHigh left op pos ts right us hop hr hheight
      · next hheight =>
        exact more left op pos ts right us hop hr (Nat.le_of_not_lt hheight)
          (Goal.rest_induction ending k l done broken tooHigh more _ us)
  · rw [Goal.parse_rest_done hstop]
    exact done left ts hstop
termination_by ts.length

/-- A minus takes a factor, one level deeper. -/
theorem Goal.parse_neg {pos : Nat} {ts : List PlacedLexeme} :
    Goal.factor.parse ending (k + 1) (⟨.operator .sub, pos⟩ :: ts)
      = (Goal.factor.parse ending k ts).map fun r => (.neg r.1, r.2) := by
  simp only [Goal.parse, Expr.factor, bind, Except.bind, Except.map]
  cases Expr.factor ending k ts <;> rfl

/-- What stands in parentheses ends with the closing one. -/
def closeParen (ending : Ending) (r : Expr × List PlacedLexeme) :
    Except SyntaxError (Expr × List PlacedLexeme) :=
  match r.2 with
  | ⟨.rightParen, _⟩ :: ts => .ok (r.1, ts)
  | ts => .error (unexpected ending ts)

theorem eq_of_closeParen {r : Expr × List PlacedLexeme} {e : Expr} {us : List PlacedLexeme}
    (h : closeParen ending r = .ok (e, us)) : ∃ pos, r = (e, ⟨.rightParen, pos⟩ :: us) := by
  obtain ⟨e', ts⟩ := r
  rw [closeParen] at h
  split at h
  · next pos ts hts =>
    obtain ⟨rfl, rfl⟩ := Prod.mk.inj (Except.ok.inj h)
    exact ⟨pos, congrArg _ hts⟩
  · contradiction

/-- Parentheses take a sum, one level deeper. -/
theorem Goal.parse_paren {pos : Nat} {ts : List PlacedLexeme} :
    Goal.factor.parse ending (k + 1) (⟨.leftParen, pos⟩ :: ts)
      = ((Goal.chain .sum).parse ending k ts).bind (closeParen ending) := by
  have hsum : (Goal.chain .sum).parse ending k ts
      = (Expr.sum (Expr.factor ending k) ts).map Subtype.val := rfl
  rw [hsum]
  simp only [Goal.parse, Expr.factor, bind, Except.bind, Except.map]
  cases Expr.sum (Expr.factor ending k) ts with
  | error e => rfl
  | ok r =>
    obtain ⟨⟨e, us⟩, h⟩ := r
    rcases us with _ | ⟨⟨t, _⟩, us⟩
    · rfl
    · cases t <;> rfl

/-! ## What is read derives -/

/-- What has been read before the goal is bounded. -/
def Goal.Before : Goal → Prop
  | rest _ left => left.Bounded
  | _ => True

/-- Whatever the parser reads for the goal derives. -/
def Goal.Sound (ending : Ending) (k : Nat) (g : Goal) : Prop :=
  ∀ (ts us : List PlacedLexeme) (e : Expr), g.parse ending k ts = .ok (e, us) →
    ∃ vs, ts = vs ++ us ∧ Derives k g (vs.map (·.lexeme)) e ∧ (g.Before → e.Bounded)

/-- What is added to an operand derives. -/
theorem sound_rest (hoperand : l.operand.Sound ending k) (left : Expr) (ts : List PlacedLexeme) :
    ∀ {us : List PlacedLexeme} {e : Expr},
      (Goal.rest l left).parse ending k ts = .ok (e, us) →
      ∃ vs, ts = vs ++ us ∧ Derives k (.rest l left) (vs.map (·.lexeme)) e ∧
        (left.Bounded → e.Bounded) := by
  induction left, ts using Goal.rest_induction ending k l with
  | done left ts _ =>
    intro us e h
    obtain ⟨rfl, rfl⟩ := Prod.mk.inj (Except.ok.inj h)
    exact ⟨[], rfl, .done, id⟩
  | broken | tooHigh => exact nofun
  | more left op pos ts right ws hop hr hheight ih =>
    intro us e h
    obtain ⟨xs, rfl, hright, hbound⟩ := hoperand _ _ _ hr
    obtain ⟨ys, rfl, hrest, hafter⟩ := ih h
    refine ⟨⟨.operator op, pos⟩ :: (xs ++ ys), by simp, ?_, fun hleft => ?_⟩
    · rw [List.map_cons, List.map_append]
      exact .more hop hright hrest
    · have hright' : right.Bounded := hbound (by cases l <;> trivial)
      exact hafter ⟨hheight, hleft, hright'⟩

theorem sound_chain (hoperand : l.operand.Sound ending k) : (Goal.chain l).Sound ending k := by
  intro ts us e h
  rw [Goal.parse_chain] at h
  obtain ⟨⟨left, ws⟩, hr, hmore⟩ := Except.bind_eq_ok_iff.mp h
  obtain ⟨xs, rfl, hleft, hbound⟩ := hoperand _ _ _ hr
  obtain ⟨ys, rfl, hrest, hafter⟩ := sound_rest hoperand left ws hmore
  refine ⟨xs ++ ys, by simp, ?_, fun _ => hafter (hbound (by cases l <;> trivial))⟩
  rw [List.map_append]
  exact .chain hleft hrest

/-- **What is read as a factor derives.** -/
theorem sound_factor (ending : Ending) : ∀ k, Goal.factor.Sound ending k
  | 0 => fun _ _ _ h => by cases h
  | k + 1 => by
    have ih := sound_factor ending k
    intro ts us e h
    rcases ts with _ | ⟨⟨t, pos⟩, ts⟩
    · cases h
    cases t with
    | number text =>
      cases h
      exact ⟨[⟨.number text, pos⟩], rfl, .number, fun _ => trivial⟩
    | name text =>
      cases h
      exact ⟨[⟨.name text, pos⟩], rfl, .name, fun _ => trivial⟩
    | rightParen => cases h
    | operator op =>
      cases op with
      | sub =>
        rw [Goal.parse_neg] at h
        obtain ⟨⟨e, ws⟩, hr, heq⟩ := Except.map_eq_ok_iff.mp h
        obtain ⟨rfl, rfl⟩ := Prod.mk.inj heq
        obtain ⟨xs, rfl, he, hbound⟩ := ih _ _ _ hr
        exact ⟨⟨.operator .sub, pos⟩ :: xs, rfl, .neg he, hbound⟩
      | _ => cases h
    | leftParen =>
      rw [Goal.parse_paren] at h
      obtain ⟨r, hr, hclose⟩ := Except.bind_eq_ok_iff.mp h
      obtain ⟨pos', rfl⟩ := eq_of_closeParen hclose
      obtain ⟨xs, rfl, he, hbound⟩ := sound_chain (sound_chain ih) _ _ _ hr
      refine ⟨⟨.leftParen, pos⟩ :: (xs ++ [⟨.rightParen, pos'⟩]), by simp, ?_, hbound⟩
      rw [List.map_cons, List.map_append]
      exact .paren he

/-! ## What derives is read -/

/-- No operator that could go on with a chain, or with its last operand, comes next. -/
def Level.Stops : Level → List Lexeme → Prop
  | product, ts => ∀ t ∈ ts.head?, product.continues t = false
  | sum, ts => ∀ t ∈ ts.head?, sum.continues t = false ∧ product.continues t = false

/-- No operator that could go on with the goal comes next. -/
def Goal.Stops : Goal → List Lexeme → Prop
  | factor, _ => True
  | chain l, ts | rest l _, ts => l.Stops ts

theorem Level.stops_nil (l : Level) : l.Stops [] := by
  cases l <;> simp [Level.Stops]

theorem Level.Stops.continues {ts : List Lexeme} (h : l.Stops ts) :
    ∀ t ∈ ts.head?, l.continues t = false := by
  cases l with
  | sum => exact fun t ht => (h t ht).1
  | product => exact h

/-- An operand stops where its chain does, and before each operator of the chain. -/
theorem stops_operand {ts us : List Lexeme} {e : Expr} (h : Derives k (.rest l left) ts e)
    (hstop : l.Stops us) : l.operand.Stops (ts ++ us) := by
  cases l with
  | product => trivial
  | sum =>
    cases h with
    | done => exact fun t ht => (hstop t ht).2
    | @more _ _ op _ _ _ _ _ hop =>
      intro t ht
      obtain rfl : _ = t := by simpa using ht
      cases op <;> first | rfl | cases hop

/-- A chain contains what stands before its rest. -/
theorem bounded_left {g : Goal} {ts : List Lexeme} {e : Expr} (h : Derives k g ts e)
    (he : e.Bounded) : g.Before := by
  induction h with
  | done => exact he
  | more _ _ _ _ ih => exact (ih he).2.1
  | _ => trivial

/-- **What derives within the limits is read**, wherever nothing follows that goes on with it. -/
theorem parse_of_derives (ending : Ending) {g : Goal} {ls : List Lexeme} {e : Expr}
    (h : Derives k g ls e) (he : e.Bounded) :
    ∀ (ts us : List PlacedLexeme), ts.map (·.lexeme) = ls → g.Stops (us.map (·.lexeme)) →
      g.parse ending k (ts ++ us) = .ok (e, us) := by
  induction h with
  | number =>
    intro ts us hts _
    obtain ⟨⟨_, pos⟩, rfl, rfl⟩ := by simpa [List.map_eq_singleton_iff] using hts
    rfl
  | name =>
    intro ts us hts _
    obtain ⟨⟨_, pos⟩, rfl, rfl⟩ := by simpa [List.map_eq_singleton_iff] using hts
    rfl
  | neg _ ih =>
    intro ts us hts _
    obtain ⟨⟨_, pos⟩, vs, rfl, rfl, hvs⟩ := List.map_eq_cons_iff.mp hts
    rw [List.cons_append, Goal.parse_neg, ih he _ _ hvs trivial]
    rfl
  | paren _ ih =>
    intro ts us hts _
    obtain ⟨⟨_, pos⟩, vs, rfl, rfl, hvs⟩ := List.map_eq_cons_iff.mp hts
    obtain ⟨vs, ws, rfl, hinner, hws⟩ := List.map_eq_append_iff.mp hvs
    obtain ⟨⟨_, pos'⟩, rfl, rfl⟩ := by simpa [List.map_eq_singleton_iff] using hws
    rw [List.cons_append, List.append_assoc, Goal.parse_paren, ih he _ _ hinner]
    · rfl
    · simp [Goal.Stops, Level.Stops, Level.continues]
  | chain hleft hrest ihleft ihrest =>
    intro ts us hts hstop
    obtain ⟨ts, vs, rfl, rfl, rfl⟩ := List.map_eq_append_iff.mp hts
    rw [List.append_assoc, Goal.parse_chain, ihleft (bounded_left hrest he) _ _ rfl]
    · exact ihrest he _ _ rfl hstop
    · rw [List.map_append]
      exact stops_operand hrest hstop
  | done =>
    intro ts us hts hstop
    obtain rfl := List.map_eq_nil_iff.mp hts
    refine Goal.parse_rest_done fun t ht => Level.Stops.continues hstop t.lexeme ?_
    rw [List.head?_map]
    exact Option.mem_map_of_mem _ ht
  | more hop hright hrest ihright ihrest =>
    intro ts us hts hstop
    obtain ⟨⟨_, pos⟩, vs, rfl, rfl, hvs⟩ := List.map_eq_cons_iff.mp hts
    obtain ⟨vs, ws, rfl, rfl, rfl⟩ := List.map_eq_append_iff.mp hvs
    have hbound := bounded_left hrest he
    rw [List.cons_append, List.append_assoc, Goal.parse_rest_more hop, ihright hbound.2.2 _ _ rfl]
    · simp only [Except.bind, Nat.not_lt.mpr hbound.1, if_false]
      exact ihrest he _ _ rfl hstop
    · rw [List.map_append]
      exact stops_operand hrest hstop

/-- What a text holds, given what has been read of it. -/
def conclude (ending : Ending) (r : Expr × List PlacedLexeme) : Except SyntaxError Expr :=
  match r.2, ending with
  | [], .complete _ => .ok r.1
  | ts, ending => .error (unexpected ending ts)

theorem conclude_eq_ok_iff {r : Expr × List PlacedLexeme} {e : Expr} :
    conclude ending r = .ok e ↔ r = (e, []) ∧ ∃ n, ending = .complete n := by
  obtain ⟨e', ts⟩ := r
  rcases ts with _ | ⟨t, ts⟩ <;> rcases ending with n | n <;> simp [conclude]

/-- An expression is a sum that takes all lexemes of the text. -/
theorem parse_eq_bind (src : Bytes) :
    parse src = ((Goal.chain .sum).parse (Scan.ofText src).ending maxDepth
      (Scan.ofText src).lexemes).bind (conclude (Scan.ofText src).ending) := by
  have hsum (ending : Ending) (ts : List PlacedLexeme) : (Goal.chain .sum).parse ending maxDepth ts
      = (Expr.sum (Expr.factor ending maxDepth) ts).map Subtype.val := rfl
  rw [hsum, parse]
  simp only [bind, Except.bind, Except.map]
  cases Expr.sum (Expr.factor (Scan.ofText src).ending maxDepth) (Scan.ofText src).lexemes with
  | error e => rfl
  | ok r =>
    obtain ⟨⟨e, ts⟩, h⟩ := r
    cases ts with
    | cons t ts => rfl
    | nil => cases (Scan.ofText src).ending <;> rfl

/-- **A text holds an expression exactly if it consists of lexemes from which the expression
derives**, within the limits on factors inside each other and on the height of chains. -/
theorem parse_iff_derives {src : Bytes} {e : Expr} :
    parse src = .ok e ↔
      ∃ ls, Lexes src ls ∧ Derives maxDepth (.chain .sum) ls e ∧ e.Bounded := by
  rw [parse_eq_bind, Except.bind_eq_ok_iff]
  constructor
  · rintro ⟨r, hr, h⟩
    obtain ⟨rfl, hend⟩ := conclude_eq_ok_iff.mp h
    obtain ⟨us, hus, hderives, hbound⟩ :=
      sound_chain (sound_chain (sound_factor _ maxDepth)) _ _ _ hr
    rw [List.append_nil] at hus
    subst hus
    exact ⟨_, Scan.complete_iff.mp ⟨rfl, hend⟩, hderives, hbound trivial⟩
  · rintro ⟨ls, hlexes, hderives, hbound⟩
    obtain ⟨hls, n, hn⟩ := Scan.complete_iff.mpr hlexes
    have hread := parse_of_derives (Scan.ofText src).ending hderives hbound
      (Scan.ofText src).lexemes [] hls (Level.stops_nil .sum)
    rw [List.append_nil] at hread
    exact ⟨_, hread, conclude_eq_ok_iff.mpr ⟨rfl, n, hn⟩⟩

/-! ## No two expressions derive from the same lexemes -/

/-- Lexemes with something behind them derive at most one expression, if it goes no further in
either reading. -/
theorem Derives.unique_of_append {g : Goal} {ts : List Lexeme} {e : Expr} (h : Derives k g ts e) :
    ∀ {k' : Nat} {ts' us us' : List Lexeme} {e' : Expr}, Derives k' g ts' e' →
      ts ++ us = ts' ++ us' → g.Stops us → g.Stops us' → ts = ts' ∧ e = e' := by
  induction h with
  | number =>
    intro k' ts' us us' e' h' happ _ _
    cases h' with
    | number => simp_all
    | _ => simp at happ
  | name =>
    intro k' ts' us us' e' h' happ _ _
    cases h' with
    | name => simp_all
    | _ => simp at happ
  | neg _ ih =>
    intro k' ts' us us' e' h' happ _ _
    cases h' with
    | neg h' =>
      obtain ⟨rfl, rfl⟩ := ih h' (List.cons.inj happ).2 trivial trivial
      exact ⟨rfl, rfl⟩
    | _ => simp at happ
  | paren _ ih =>
    intro k' ts' us us' e' h' happ _ _
    cases h' with
    | paren h' =>
      have hclose (vs : List Lexeme) : (Goal.chain .sum).Stops (.rightParen :: vs) := by
        simp [Goal.Stops, Level.Stops, Level.continues]
      obtain ⟨rfl, rfl⟩ := ih h' (by simpa using happ) (hclose us) (hclose us')
      exact ⟨rfl, rfl⟩
    | _ => simp at happ
  | chain _ hrest ihleft ihrest =>
    intro k' ts' us us' e' h' happ hstop hstop'
    cases h' with
    | chain hleft' hrest' =>
      rw [List.append_assoc, List.append_assoc] at happ
      obtain ⟨rfl, rfl⟩ := ihleft hleft' happ (stops_operand hrest hstop)
        (stops_operand hrest' hstop')
      obtain ⟨rfl, rfl⟩ := ihrest hrest' (List.append_cancel_left happ) hstop hstop'
      exact ⟨rfl, rfl⟩
  | done =>
    intro k' ts' us us' e' h' happ hstop _
    cases h' with
    | done => exact ⟨rfl, rfl⟩
    | more hop =>
      have := Level.Stops.continues hstop (.operator _) (by rw [← List.nil_append us, happ]; rfl)
      rw [Level.continues, hop] at this
      cases this
  | more hop hright hrest ihright ihrest =>
    intro k' ts' us us' e' h' happ hstop hstop'
    cases h' with
    | done =>
      have := Level.Stops.continues hstop' (.operator _)
        (by rw [← List.nil_append us', ← happ]; rfl)
      rw [Level.continues, hop] at this
      cases this
    | more hop' hright' hrest' =>
      rw [List.cons_append, List.cons_append, List.append_assoc, List.append_assoc] at happ
      obtain ⟨hhead, htail⟩ := List.cons.inj happ
      obtain rfl := Lexeme.operator.inj hhead
      obtain ⟨rfl, rfl⟩ := ihright hright' htail (stops_operand hrest hstop)
        (stops_operand hrest' hstop')
      obtain ⟨rfl, rfl⟩ := ihrest hrest' (List.append_cancel_left htail) hstop hstop'
      exact ⟨rfl, rfl⟩

/-- **The grammar is unambiguous.** -/
theorem Derives.unique {k' : Nat} {ls : List Lexeme} {e e' : Expr}
    (h : Derives k (.chain .sum) ls e) (h' : Derives k' (.chain .sum) ls e') : e = e' :=
  (h.unique_of_append h' rfl (Level.stops_nil .sum) (Level.stops_nil .sum)).2

/-! ## Operands and operators take turns -/

/-- Can an operand begin with the lexeme? -/
def beginsOperand : Lexeme → Bool
  | .number _ | .name _ | .leftParen | .operator .sub => true
  | .operator _ | .rightParen => false

/-- Does an operand end with the lexeme? -/
def endsOperand : Lexeme → Bool
  | .number _ | .name _ | .rightParen => true
  | .operator _ | .leftParen => false

/-- Can the lexeme stand behind an operand? -/
def followsOperand : Lexeme → Bool
  | .operator _ | .rightParen => true
  | .number _ | .name _ | .leftParen => false

/-- Operands and operators take turns in the lexemes, behind an operand or where one is due. -/
def Turns (due : Bool) : List Lexeme → Prop
  | [] => True
  | t :: ts =>
    (if due then beginsOperand t else followsOperand t) = true ∧ Turns (!endsOperand t) ts

/-- Is an operand due at the goal? -/
def Goal.due : Goal → Bool
  | rest _ _ => false
  | _ => true

theorem Level.operand_due (l : Level) : l.operand.due = true := by
  cases l <;> rfl

theorem Derives.turns {g : Goal} {ts : List Lexeme} {e : Expr} (h : Derives k g ts e) :
    ∀ {us : List Lexeme}, Turns false us → Turns g.due (ts ++ us) := by
  induction h with
  | number => exact fun hus => ⟨rfl, hus⟩
  | name => exact fun hus => ⟨rfl, hus⟩
  | neg _ ih => exact fun hus => ⟨rfl, ih hus⟩
  | paren _ ih =>
    intro us hus
    rw [List.cons_append, List.append_assoc]
    exact ⟨rfl, ih ⟨rfl, hus⟩⟩
  | @chain _ l _ _ _ _ _ _ ihleft ihrest =>
    intro us hus
    rw [List.append_assoc]
    have := ihleft (ihrest hus)
    rwa [l.operand_due] at this
  | done => exact id
  | @more _ l _ _ _ _ _ _ _ _ _ ihright ihrest =>
    intro us hus
    rw [List.cons_append, List.append_assoc]
    have := ihright (ihrest hus)
    rw [l.operand_due] at this
    exact ⟨rfl, this⟩

theorem Derives.turns_self {ts : List Lexeme} {e : Expr} (h : Derives k (.chain .sum) ts e) :
    Turns true ts := by
  have hturns : Turns true (ts ++ []) := h.turns trivial
  rwa [List.append_nil] at hturns

end Expr

end LayoutMarkup

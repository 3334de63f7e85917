import LayoutMarkup.Proofs.FormulaTokens

/-!
# Proofs/Agreement — the canonical form of an expression means the same

An expression that can be read as a formula has a term (`image?`), put together from the terms of
its numbers and names.  Any lexemes from which the expression derives are read as this term
(`Expr.Derives.read`).  The text of an expression and its canonical form are two such sequences of
lexemes, so they agree.
-/

namespace LayoutMarkup

namespace Formula

open LayoutMarkup.Expr (Level Goal Derives)

/-! ## The parser without its bookkeeping -/

/-- The operators of a chain. -/
def operation? : Level → Token → Option Operation
  | .sum => Token.additive?
  | .product => Token.multiplicative?

/-- A factor, and the tokens behind it. -/
def factor? (ts : List Token) : Option (Term × List Token) := (factor ts).map Subtype.val

/-- The members that are taken of an object, and the tokens behind them. -/
def access? (object : Term) (ts : List Token) : Option (Term × List Token) :=
  (access object ts).map Subtype.val

/-- A chain, and the tokens behind it. -/
def chain? (l : Level) (ts : List Token) : Option (Term × List Token) :=
  match l with
  | .sum => (sum ts).map Subtype.val
  | .product => (product ts).map Subtype.val

/-- The rest of a chain, and the tokens behind it. -/
def rest? (l : Level) (left : Term) (ts : List Token) : Option (Term × List Token) :=
  match l with
  | .sum => (sumRest left ts).map Subtype.val
  | .product => (productRest left ts).map Subtype.val

/-- An operand of a chain, and the tokens behind it. -/
def operand? : Level → List Token → Option (Term × List Token)
  | .sum => chain? .product
  | .product => factor?

variable {l : Level} {left object e : Term} {ts rest : List Token}

/-- A chain is an operand and what is added to it. -/
theorem chain?_eq : chain? l ts = (operand? l ts).bind fun r => rest? l r.1 r.2 := by
  cases l with
  | sum =>
    simp only [chain?, operand?, rest?]
    rw [sum]
    cases product ts with
    | none => rfl
    | some r =>
      obtain ⟨⟨left, rest⟩, h⟩ := r
      simp only [Option.map_some, Option.bind_some]
      cases sumRest left rest <;> rfl
  | product =>
    simp only [chain?, operand?, rest?, factor?]
    rw [product]
    cases factor ts with
    | none => rfl
    | some r =>
      obtain ⟨⟨left, rest⟩, h⟩ := r
      simp only [Option.map_some, Option.bind_some]
      cases productRest left rest <;> rfl

theorem rest?_nil : rest? l left [] = some (left, []) := by
  cases l with
  | sum => simp [rest?, sumRest]
  | product => simp [rest?, productRest]

/-- A chain ends before a token that is none of its operators. -/
theorem rest?_done {t : Token} (h : operation? l t = none) :
    rest? l left (t :: ts) = some (left, t :: ts) := by
  cases l with
  | sum =>
    simp only [operation?] at h
    rw [rest?, sumRest]
    split
    · rfl
    · next h' => rw [h] at h'; cases h'
  | product =>
    simp only [operation?] at h
    rw [rest?, productRest]
    split
    · rfl
    · next h' => rw [h] at h'; cases h'

/-- A chain goes on with an operator and an operand, grouped to the left. -/
theorem rest?_more {t : Token} {op : Operation} (h : operation? l t = some op) :
    rest? l left (t :: ts)
      = (operand? l ts).bind fun r => rest? l (.binary op left r.1) r.2 := by
  cases l with
  | sum =>
    simp only [operation?] at h
    simp only [rest?, operand?, chain?]
    rw [sumRest]
    split
    · next h' => rw [h] at h'; cases h'
    · next h' =>
      rw [h] at h'
      cases h'
      cases product ts with
      | none => rfl
      | some r =>
        obtain ⟨⟨right, rest⟩, hr⟩ := r
        simp only [Option.map_some, Option.bind_some]
        cases sumRest (.binary op left right) rest <;> rfl
  | product =>
    simp only [operation?] at h
    simp only [rest?, operand?, factor?]
    rw [productRest]
    split
    · next h' => rw [h] at h'; cases h'
    · next h' =>
      rw [h] at h'
      cases h'
      cases factor ts with
      | none => rfl
      | some r =>
        obtain ⟨⟨right, rest⟩, hr⟩ := r
        simp only [Option.map_some, Option.bind_some]
        cases productRest (.binary op left right) rest <;> rfl

/-- What stands in parentheses or brackets ends with the closing one. -/
def close? (closing : Token) (r : Term × List Token) : Option (Term × List Token) :=
  match r.2 with
  | [] => none
  | t :: ts => if t = closing then some (r.1, ts) else none

/-- A minus takes a factor, and members can be taken of the negation. -/
theorem factor?_minus :
    factor? (.minus :: ts) = (factor? ts).bind fun r => access? (.neg r.1) r.2 := by
  simp only [factor?, access?]
  rw [factor]
  cases factor ts with
  | none => rfl
  | some r =>
    obtain ⟨⟨e, rest⟩, h⟩ := r
    simp only [Option.map_some, Option.bind_some]
    cases access (.neg e) rest <;> rfl

theorem factor?_number {n : Number} : factor? (.number n :: ts) = some (.number n, ts) := by
  rw [factor?, factor]
  rfl

/-- A word is a name unless it is reserved. -/
theorem factor?_word {w : List Char} : factor? (.word w :: ts)
    = if w ∈ reserved.map String.toList then none
      else access? (.name (w.flatMap String.utf8EncodeChar)) ts := by
  rw [factor?, factor]
  split
  · rfl
  · rw [access?]
    cases access (.name (w.flatMap String.utf8EncodeChar)) ts <;> rfl

theorem factor?_text {v : Bytes} : factor? (.text v :: ts) = access? (.text v) ts := by
  rw [factor?, factor, access?]
  cases access (.text v) ts <;> rfl

/-- Parentheses hold a whole sum. -/
theorem factor?_leftParen : factor? (.leftParen :: ts)
    = ((chain? .sum ts).bind (close? .rightParen)).bind fun r => access? r.1 r.2 := by
  simp only [factor?, chain?, access?]
  rw [factor]
  cases sum ts with
  | none => rfl
  | some r =>
    obtain ⟨⟨e, rest⟩, h⟩ := r
    rcases rest with _ | ⟨t, rest⟩
    · rfl
    · cases t with
      | rightParen =>
        simp only [Option.map_some, Option.bind_some, close?, if_true]
        cases access e rest <;> rfl
      | _ => rfl

/-- A point takes the member with the name behind it. -/
theorem access?_dot {t : Token} : access? object (.dot :: t :: ts)
    = t.word?.bind fun w => access? (.member object (.text w)) ts := by
  simp only [access?]
  rw [access]
  cases t.word? with
  | none => rfl
  | some w =>
    simp only [Option.bind_some]
    cases access (.member object (.text w)) ts <;> rfl

theorem access?_point : access? object [.dot] = none := by
  rw [access?, access]
  rfl

/-- Brackets take the member that they hold. -/
theorem access?_leftBracket : access? object (.leftBracket :: ts)
    = ((chain? .sum ts).bind (close? .rightBracket)).bind
        fun r => access? (.member object r.1) r.2 := by
  simp only [access?, chain?]
  rw [access]
  cases sum ts with
  | none => rfl
  | some r =>
    obtain ⟨⟨e, rest⟩, h⟩ := r
    rcases rest with _ | ⟨t, rest⟩
    · rfl
    · cases t with
      | rightBracket =>
        simp only [Option.map_some, Option.bind_some, close?, if_true]
        cases access (.member object e) rest <;> rfl
      | _ => rfl

/-- Nothing else takes a member. -/
theorem access?_done (h : ∀ t ∈ ts.head?, t ≠ .dot ∧ t ≠ .leftBracket) :
    access? object ts = some (object, ts) := by
  rw [access?, access.eq_def]
  split
  · exact absurd rfl (h _ rfl).1
  · exact absurd rfl (h _ rfl).1
  · exact absurd rfl (h _ rfl).2
  · rfl

/-- Every chain takes some tokens. -/
theorem length_chain? (h : chain? l ts = some (e, rest)) : rest.length < ts.length := by
  cases l with
  | sum =>
    obtain ⟨r, -, hr⟩ := Option.map_eq_some_iff.mp h
    have := r.2
    rwa [hr] at this
  | product =>
    obtain ⟨r, -, hr⟩ := Option.map_eq_some_iff.mp h
    have := r.2
    rwa [hr] at this

/-- A factor takes at least one token. -/
theorem length_factor? (h : factor? ts = some (e, rest)) : rest.length < ts.length := by
  obtain ⟨r, -, hr⟩ := Option.map_eq_some_iff.mp h
  have := r.2
  rwa [hr] at this

theorem length_operand? (h : operand? l ts = some (e, rest)) : rest.length < ts.length := by
  cases l with
  | sum => exact length_chain? (l := .product) h
  | product => exact length_factor? h

/-! ## No number follows a word in a formula -/

/-- No number follows a word, also if a word stands before the tokens. -/
def Tame (ts : List Token) : Prop := Seemly ts ∧ ∀ n, ts.head? ≠ some (.number n)

theorem tame_nil : Tame [] := ⟨.nil, by simp⟩

theorem seemly_cons {t : Token} (ht : ∀ w, t ≠ .word w) (h : Seemly ts) : Seemly (t :: ts) :=
  List.isChain_cons.mpr ⟨fun _ _ w _ hw => absurd hw (ht w), h⟩

/-- Any token may stand before tokens that do not begin with a number. -/
theorem Tame.seemly_cons (h : Tame ts) (t : Token) : Seemly (t :: ts) := by
  refine List.isChain_cons.mpr ⟨fun u hu w n _ hn => h.2 n ?_, h.1⟩
  rw [← hn]
  exact hu

theorem tame_cons {t : Token} (ht : ∀ w, t ≠ .word w) (ht' : ∀ n, t ≠ .number n)
    (h : Seemly ts) : Tame (t :: ts) :=
  ⟨Formula.seemly_cons ht h, fun n => by simpa using ht' n⟩

/-- An operator is neither a word nor a number. -/
theorem operation?_eq_some {t : Token} {op : Operation} (h : operation? l t = some op) :
    (∀ w, t ≠ .word w) ∧ ∀ n, t ≠ .number n := by
  constructor <;> rintro _ rfl <;> cases l <;> cases h

theorem close?_eq_some {closing : Token} {e e' : Term} {ts us : List Token}
    (h : close? closing (e, ts) = some (e', us)) : e = e' ∧ ts = closing :: us := by
  rcases ts with _ | ⟨t, ts⟩
  · cases h
  · simp only [close?] at h
    split at h
    · next ht =>
      cases h
      exact ⟨rfl, by rw [ht]⟩
    · cases h

-- By recursion on the tokens, as the parser goes through them.
mutual

/-- In a sum that is read, no number follows a word. -/
theorem seemly_sum {ts rest : List Token} {e : Term} (h : chain? .sum ts = some (e, rest))
    (hrest : Tame rest) : Seemly ts := by
  rw [chain?_eq] at h
  obtain ⟨⟨left, us⟩, hleft, h⟩ := Option.bind_eq_some_iff.mp h
  have := length_operand? hleft
  exact seemly_product hleft (tame_rest h hrest)
termination_by 4 * ts.length + 3

theorem seemly_product {ts rest : List Token} {e : Term} (h : chain? .product ts = some (e, rest))
    (hrest : Tame rest) : Seemly ts := by
  rw [chain?_eq] at h
  obtain ⟨⟨left, us⟩, hleft, h⟩ := Option.bind_eq_some_iff.mp h
  have := length_operand? hleft
  exact seemly_factor hleft (tame_rest h hrest)
termination_by 4 * ts.length + 2

/-- What is added to an operand does not begin with a number. -/
theorem tame_rest {l : Level} {left : Term} {ts rest : List Token} {e : Term}
    (h : rest? l left ts = some (e, rest)) (hrest : Tame rest) : Tame ts := by
  match ts with
  | [] => exact tame_nil
  | t :: ts =>
    cases hop : operation? l t with
    | none =>
      rw [rest?_done hop] at h
      cases h
      exact hrest
    | some op =>
      rw [rest?_more hop] at h
      obtain ⟨⟨right, us⟩, hright, h⟩ := Option.bind_eq_some_iff.mp h
      have := length_operand? hright
      have hus : Tame us := tame_rest h hrest
      obtain ⟨hword, hnumber⟩ := operation?_eq_some hop
      refine tame_cons hword hnumber ?_
      cases l with
      | sum => exact seemly_product hright hus
      | product => exact seemly_factor hright hus
termination_by 4 * ts.length

theorem seemly_factor {ts rest : List Token} {e : Term} (h : factor? ts = some (e, rest))
    (hrest : Tame rest) : Seemly ts := by
  match ts with
  | .minus :: ts =>
    rw [factor?_minus] at h
    obtain ⟨⟨inner, us⟩, hinner, h⟩ := Option.bind_eq_some_iff.mp h
    have := length_factor? hinner
    exact seemly_cons (by simp) (seemly_factor hinner (tame_access h hrest))
  | .number n :: ts =>
    rw [factor?_number] at h
    cases h
    exact hrest.seemly_cons _
  | .word w :: ts =>
    rw [factor?_word] at h
    split at h
    · cases h
    · exact (tame_access h hrest).seemly_cons _
  | .text v :: ts =>
    rw [factor?_text] at h
    exact (tame_access h hrest).seemly_cons _
  | .leftParen :: ts =>
    rw [factor?_leftParen] at h
    obtain ⟨⟨inner, us⟩, hinner, h⟩ := Option.bind_eq_some_iff.mp h
    obtain ⟨⟨inner, vs⟩, hsum, hclose⟩ := Option.bind_eq_some_iff.mp hinner
    obtain ⟨rfl, rfl⟩ := close?_eq_some hclose
    have hlt : us.length + 1 < ts.length := length_chain? hsum
    have hus := tame_access h hrest
    exact seemly_cons (by simp) (seemly_sum hsum (tame_cons (by simp) (by simp) hus.1))
  | [] | .plus :: _ | .times :: _ | .over :: _ | .dot :: _ | .rightParen :: _
  | .leftBracket :: _ | .rightBracket :: _ => simp [factor?, factor] at h
termination_by 4 * ts.length + 1

/-- What is taken of a term does not begin with a number. -/
theorem tame_access {object : Term} {ts rest : List Token} {e : Term}
    (h : access? object ts = some (e, rest)) (hrest : Tame rest) : Tame ts := by
  match ts with
  | .dot :: .word w :: ts =>
    rw [access?_dot] at h
    obtain ⟨-, -, h⟩ := Option.bind_eq_some_iff.mp h
    exact tame_cons (by simp) (by simp) ((tame_access h hrest).seemly_cons _)
  | .leftBracket :: ts =>
    rw [access?_leftBracket] at h
    obtain ⟨⟨property, us⟩, hproperty, h⟩ := Option.bind_eq_some_iff.mp h
    obtain ⟨⟨property, vs⟩, hsum, hclose⟩ := Option.bind_eq_some_iff.mp hproperty
    obtain ⟨rfl, rfl⟩ := close?_eq_some hclose
    have hlt : us.length + 1 < ts.length := length_chain? hsum
    have hus := tame_access h hrest
    exact tame_cons (by simp) (by simp) (seemly_sum hsum (tame_cons (by simp) (by simp) hus.1))
  | [.dot] =>
    rw [access?_point] at h
    cases h
  | [] | .number _ :: _ | .word _ :: _ | .text _ :: _ | .plus :: _ | .minus :: _ | .times :: _
  | .over :: _ | .leftParen :: _ | .rightParen :: _ | .rightBracket :: _ =>
    rw [access?_done (by simp)] at h
    cases h
    exact hrest
  | .dot :: .number _ :: _ | .dot :: .text _ :: _ | .dot :: .plus :: _ | .dot :: .minus :: _
  | .dot :: .times :: _ | .dot :: .over :: _ | .dot :: .dot :: _ | .dot :: .leftParen :: _
  | .dot :: .rightParen :: _ | .dot :: .leftBracket :: _ | .dot :: .rightBracket :: _ =>
    rw [access?_dot] at h
    cases h
termination_by 4 * ts.length

end

/-! ## The term of an expression -/

/-- The term that has been read, if nothing is left. -/
def finish? (r : Term × List Token) : Option Term :=
  match r.2 with
  | [] => some r.1
  | _ :: _ => none

/-- A formula is a sum that takes all tokens. -/
theorem read?_eq (src : Bytes) :
    read? src = (tokens? src.shown).bind fun ts => (chain? .sum ts).bind finish? := by
  have hshown : src.glyphs.map Glyph.shown = src.shown := rfl
  rw [read?, hshown]
  cases tokens? src.shown with
  | none => rfl
  | some ts =>
    simp only [chain?, Option.bind_some]
    cases sum ts with
    | none => rfl
    | some r =>
      obtain ⟨⟨e, rest⟩, h⟩ := r
      cases rest <;> rfl

/-- The operation that an operator stands for. -/
def Operation.ofOperator? : Operator → Option Operation
  | .add => some .plus
  | .sub => some .minus
  | .mul => some .times
  | .div => some .over
  | .other .. => none

/-- The term of an expression. -/
def image? : Expr → Option Term
  | .number t | .name t => read? t
  | .neg e => (image? e).map .neg
  | .binary op l r =>
    (Operation.ofOperator? op).bind fun o =>
      (image? l).bind fun t => (image? r).map fun u => .binary o t u
  | .call _ => none

/-- What can stand behind an operand. -/
def behind : List Token := [.plus, .minus, .times, .over, .rightParen]

/-- The tokens go on as they can behind an operand. -/
def Behind (ts : List Token) : Prop := ∀ t ∈ ts.head?, t ∈ behind

theorem behind_nil : Behind [] := by simp [Behind]

/-- No member is taken before what can stand behind an operand. -/
theorem Behind.access? (h : Behind ts) : access? object ts = some (object, ts) :=
  access?_done fun t ht =>
    (by decide : ∀ t ∈ behind, t ≠ .dot ∧ t ≠ .leftBracket) t (h t ht)

/-- The members that a name goes on with are taken, whatever stands behind it. -/
theorem access?_nameTail {us : List Token} (h : NameTail us) (object : Term) :
    ∃ v : Option Term, ∀ rest, Behind rest → access? object (us ++ rest) = v.map (·, rest) := by
  induction h generalizing object with
  | nil => exact ⟨some object, fun rest hrest => hrest.access?⟩
  | point =>
    refine ⟨none, fun rest hrest => ?_⟩
    cases rest with
    | nil => exact access?_point
    | cons t rest =>
      have hword := (by decide : ∀ t ∈ behind, t.word? = none) t (hrest t rfl)
      rw [List.singleton_append, access?_dot, hword]
      rfl
  | member _ ih =>
    obtain ⟨v, hv⟩ := ih (.member object (.text _))
    exact ⟨v, fun rest hrest => access?_dot.trans (hv rest hrest)⟩

/-- A factor alone is a chain. -/
theorem chain?_of_factor? {v : Option Term} (h : factor? ts = v.map (·, [])) (l : Level) :
    chain? l ts = v.map (·, []) := by
  have hproduct : chain? .product ts = v.map (·, []) := by
    rw [chain?_eq, operand?, h]
    cases v with
    | none => rfl
    | some e => simp [rest?_nil]
  cases l with
  | product => exact hproduct
  | sum =>
    rw [chain?_eq, operand?, hproduct]
    cases v with
    | none => rfl
    | some e => simp [rest?_nil]

/-- A number or a name is read as a factor, whatever stands behind it, and alone. -/
theorem factor?_of_alone {t : Bytes} {v : Option Term} (hts : tokens? t.shown = some ts)
    (h : ∀ rest, Behind rest → factor? (ts ++ rest) = v.map (·, rest)) (hrest : Behind rest) :
    factor? (ts ++ rest) = (read? t).map (·, rest) := by
  have halone := h [] behind_nil
  rw [List.append_nil] at halone
  have hread : read? t = v := by
    rw [read?_eq, hts, Option.bind_some, chain?_of_factor? halone]
    cases v <;> rfl
  rw [h rest hrest, hread]

/-! ## Derivations are read as terms -/

/-- Reading a goal off the front of some tokens. -/
def readGoal? : Goal → List Token → Option (Term × List Token)
  | .factor, ts => factor? ts
  | .chain l, ts => chain? l ts
  | .rest l left, ts => (image? left).bind fun t => rest? l t ts

/-- No operator that could go on with a chain, or with its last operand, comes next. -/
def Ends : Level → List Token → Prop
  | .product, ts => ∀ t ∈ ts.head?, operation? .product t = none
  | .sum, ts => ∀ t ∈ ts.head?, operation? .sum t = none ∧ operation? .product t = none

/-- No operator that could go on with the goal comes next. -/
def GoalEnds : Goal → List Token → Prop
  | .factor, _ => True
  | .chain l, ts | .rest l _, ts => Ends l ts

/-- Nothing is added where the chain has ended. -/
theorem Ends.rest? (h : Ends l ts) (left : Term) : rest? l left ts = some (left, ts) := by
  cases ts with
  | nil => exact rest?_nil
  | cons t ts =>
    cases l with
    | sum => exact rest?_done (h t rfl).1
    | product => exact rest?_done (h t rfl)

/-- The token of an operator. -/
def operatorToken : Operator → Token
  | .add => .plus
  | .sub => .minus
  | .mul => .times
  | _ => .over

theorem operatorToken_mem (op : Operator) : operatorToken op ∈ behind := by
  cases op <;> simp [operatorToken, behind]

theorem tokens?_operator {op : Operator} (h : op.isArithmetic = true) :
    tokens? (Lexeme.operator op).text.shown = some [operatorToken op] := by
  rw [shown_mark (mem_marks h)]
  cases op with
  | other => cases h
  | _ => exact tokens?_alone rfl

/-- The operators of a chain are those of its level. -/
theorem operation?_operatorToken {op : Operator} (h : l.accepts op = true) :
    operation? l (operatorToken op) = Operation.ofOperator? op := by
  cases l <;> cases op <;> first | rfl | cases h

/-- Lexemes have their tokens one by one. -/
theorem lexemeTokens?_append {ls ms : List Lexeme} :
    lexemeTokens? (ls ++ ms) = concat? (lexemeTokens? ls) (lexemeTokens? ms) := by
  induction ls with
  | nil => cases h : lexemeTokens? ms <;> simp [lexemeTokens?, concat?, h]
  | cons l ls ih =>
    rw [List.cons_append, lexemeTokens?, lexemeTokens?, ih]
    cases tokens? l.text.shown <;> cases lexemeTokens? ls <;> cases lexemeTokens? ms <;>
      simp [concat?]

/-- Lexemes have tokens if each of them has. -/
theorem lexemeTokens?_eq_some_iff {ls : List Lexeme} :
    (∃ ts, lexemeTokens? ls = some ts) ↔ ∀ l ∈ ls, ∃ us, tokens? l.text.shown = some us := by
  induction ls with
  | nil => simp [lexemeTokens?]
  | cons l ls ih =>
    rw [List.forall_mem_cons, ← ih]
    constructor
    · rintro ⟨ts, hts⟩
      obtain ⟨us, vs, hus, hvs, -⟩ := concat?_eq_some hts
      exact ⟨⟨us, hus⟩, vs, hvs⟩
    · rintro ⟨⟨us, hus⟩, vs, hvs⟩
      exact ⟨us ++ vs, by rw [lexemeTokens?, hus, hvs]; rfl⟩

/-- The lexeme stands for itself in a formula. -/
structure Legible (l : Lexeme) : Prop where
  stands : l.Stands []
  plain : Plain l

theorem Legible.operator {op : Operator} (h : Legible (.operator op)) {us : List Token}
    (hus : tokens? (Lexeme.operator op).text.shown = some us) : us = [operatorToken op] := by
  obtain _ | _ | _ | hop := h.stands
  rw [tokens?_operator hop] at hus
  exact (Option.some.inj hus).symm

theorem tokens?_leftParen : tokens? Lexeme.leftParen.text.shown = some [.leftParen] := by
  rw [shown_mark (by decide)]
  exact tokens?_alone rfl

theorem tokens?_rightParen : tokens? Lexeme.rightParen.text.shown = some [.rightParen] := by
  rw [shown_mark (by decide)]
  exact tokens?_alone rfl

/-- The rest of a chain is nothing or begins with an operator. -/
theorem ends_operand {k : Nat} {left e : Expr} {ls : List Lexeme} {us : List Token}
    (h : Derives k (.rest l left) ls e) (hls : ∀ t ∈ ls, Legible t)
    (hus : lexemeTokens? ls = some us) (hrest : Behind rest) (hends : Ends l rest) :
    Behind (us ++ rest) ∧ GoalEnds l.operand (us ++ rest) := by
  cases h with
  | done =>
    cases hus
    refine ⟨hrest, ?_⟩
    cases l with
    | sum => exact fun t ht => (hends t ht).2
    | product => trivial
  | @more _ _ op _ _ _ _ _ hop =>
    obtain ⟨xs, ys, hxs, -, rfl⟩ := concat?_eq_some hus
    obtain rfl := (hls _ List.mem_cons_self).operator hxs
    refine ⟨fun t ht => ?_, ?_⟩
    · obtain rfl : operatorToken op = t := by simpa using ht
      exact operatorToken_mem op
    · cases l with
      | product => trivial
      | sum =>
        intro t ht
        obtain rfl : operatorToken op = t := by simpa using ht
        cases op <;> first | rfl | cases hop

/-- A number is read as a factor. -/
theorem factor?_of_legible_number {t : Bytes} (h : Legible (.number t))
    (hts : tokens? t.shown = some ts) (hrest : Behind rest) :
    factor? (ts ++ rest) = (image? (.number t)).map (·, rest) := by
  obtain ⟨-, v, hv⟩ := number_tokens h.stands
  obtain ⟨n, rfl, rfl⟩ := Option.map_eq_some_iff.mp (hv.symm.trans hts)
  exact factor?_of_alone (v := some (.number n)) hts (fun rest _ => factor?_number) hrest

/-- A name is read as a factor, or not at all if it is reserved. -/
theorem factor?_of_legible_name {t : Bytes} (h : Legible (.name t))
    (hts : tokens? t.shown = some ts) (hrest : Behind rest) :
    factor? (ts ++ rest) = (image? (.name t)).map (·, rest) := by
  obtain ⟨w, us, rfl, hus⟩ := (h.plain t rfl).2 ts hts
  obtain ⟨v, hv⟩ := access?_nameTail hus (.name (w.flatMap String.utf8EncodeChar))
  refine factor?_of_alone (v := if w ∈ reserved.map String.toList then none else v) hts
    (fun rest hrest => ?_) hrest
  rw [List.cons_append, factor?_word, hv rest hrest]
  split <;> rfl

/-- A minus before a factor is read as its negation. -/
theorem factor?_neg {e : Expr} (h : factor? ts = (image? e).map (·, rest)) (hrest : Behind rest) :
    factor? (.minus :: ts) = (image? (.neg e)).map (·, rest) := by
  rw [factor?_minus, h, image?]
  cases image? e with
  | none => rfl
  | some t => exact hrest.access?

/-- Parentheses around a sum are read as the sum. -/
theorem factor?_paren {e : Expr} (h : chain? .sum ts = (image? e).map (·, .rightParen :: rest))
    (hrest : Behind rest) : factor? (.leftParen :: ts) = (image? e).map (·, rest) := by
  rw [factor?_leftParen, h]
  cases image? e with
  | none => rfl
  | some t => simpa [close?] using hrest.access?

theorem operand?_eq_readGoal? (l : Level) (ts : List Token) :
    operand? l ts = readGoal? l.operand ts := by
  cases l <;> rfl

/-- A chain is read as its first operand and the rest. -/
theorem readGoal?_chain {left : Expr} {us : List Token}
    (h : readGoal? l.operand ts = (image? left).map (·, us)) :
    readGoal? (.chain l) ts = readGoal? (.rest l left) us := by
  rw [readGoal?, readGoal?, chain?_eq, operand?_eq_readGoal?, h]
  cases image? left <;> rfl

/-- Behind an operator, the next operand is joined to what has been read of the chain. -/
theorem readGoal?_more {op : Operator} {right : Expr} {us : List Token} (hop : l.accepts op = true)
    (h : readGoal? l.operand ts = (image? right).map (·, us)) (left : Expr) :
    readGoal? (.rest l left) (operatorToken op :: ts)
      = readGoal? (.rest l (.binary op left right)) us := by
  obtain ⟨o, ho⟩ : ∃ o, Operation.ofOperator? op = some o := by
    cases op with
    | other => cases l <;> cases hop
    | _ => exact ⟨_, rfl⟩
  have hmore : operation? l (operatorToken op) = some o := (operation?_operatorToken hop).trans ho
  rw [readGoal?, readGoal?, image?]
  simp only [rest?_more hmore, operand?_eq_readGoal?, h, ho]
  cases image? left <;> cases image? right <;> rfl

/-- **The lexemes from which an expression derives are read as its term.** -/
theorem readGoal?_of_derives {k : Nat} {g : Goal} {ls : List Lexeme} {e : Expr}
    (h : Derives k g ls e) (hls : ∀ t ∈ ls, Legible t) :
    ∀ {ts rest : List Token}, lexemeTokens? ls = some ts → Behind rest → GoalEnds g rest →
      readGoal? g (ts ++ rest) = (image? e).map (·, rest) := by
  induction h with
  | number =>
    intro ts rest hts hrest _
    obtain ⟨us, vs, hus, hvs, rfl⟩ := concat?_eq_some hts
    cases hvs
    rw [List.append_nil]
    exact factor?_of_legible_number (hls _ List.mem_cons_self) hus hrest
  | name =>
    intro ts rest hts hrest _
    obtain ⟨us, vs, hus, hvs, rfl⟩ := concat?_eq_some hts
    cases hvs
    rw [List.append_nil]
    exact factor?_of_legible_name (hls _ List.mem_cons_self) hus hrest
  | neg _ ih =>
    intro ts rest hts hrest _
    obtain ⟨hsub, hls⟩ := List.forall_mem_cons.mp hls
    obtain ⟨us, vs, hus, hvs, rfl⟩ := concat?_eq_some hts
    obtain rfl := hsub.operator hus
    exact factor?_neg (ih hls hvs hrest trivial) hrest
  | paren _ ih =>
    intro ts rest hts hrest _
    obtain ⟨-, hls⟩ := List.forall_mem_cons.mp hls
    obtain ⟨hls, -⟩ := List.forall_mem_append.mp hls
    obtain ⟨us, vs, hus, hvs, rfl⟩ := concat?_eq_some hts
    rw [lexemeTokens?_append] at hvs
    obtain ⟨xs, ys, hxs, hys, rfl⟩ := concat?_eq_some hvs
    rw [tokens?_leftParen] at hus
    rw [lexemeTokens?, tokens?_rightParen] at hys
    cases hus
    cases hys
    have happ : [.leftParen] ++ (xs ++ ([.rightParen] ++ [])) ++ rest
        = .leftParen :: (xs ++ Token.rightParen :: rest) := by simp
    rw [happ]
    exact factor?_paren (ih hls hxs (by simp [Behind, behind])
      (by simp [GoalEnds, Ends, operation?, Token.additive?, Token.multiplicative?])) hrest
  | chain hleft hrest ihleft ihrest =>
    intro ts rest hts hbehind hends
    obtain ⟨hls, hms⟩ := List.forall_mem_append.mp hls
    rw [lexemeTokens?_append] at hts
    obtain ⟨us, vs, hus, hvs, rfl⟩ := concat?_eq_some hts
    obtain ⟨hbehind', hends'⟩ := ends_operand hrest hms hvs hbehind hends
    rw [List.append_assoc, readGoal?_chain (ihleft hls hus hbehind' hends')]
    exact ihrest hms hvs hbehind hends
  | @done _ l left =>
    intro ts rest hts _ hends
    cases hts
    rw [List.nil_append, readGoal?]
    cases image? left with
    | none => rfl
    | some t => exact hends.rest? t
  | more hop hright hrest ihright ihrest =>
    intro ts rest hts hbehind hends
    obtain ⟨hoperator, hls⟩ := List.forall_mem_cons.mp hls
    obtain ⟨hls, hms⟩ := List.forall_mem_append.mp hls
    obtain ⟨xs, ys, hxs, hys, rfl⟩ := concat?_eq_some hts
    obtain rfl := hoperator.operator hxs
    rw [lexemeTokens?_append] at hys
    obtain ⟨us, vs, hus, hvs, rfl⟩ := concat?_eq_some hys
    obtain ⟨hbehind', hends'⟩ := ends_operand hrest hms hvs hbehind hends
    rw [List.append_assoc, List.append_assoc, List.singleton_append,
      readGoal?_more hop (ihright hls hus hbehind' hends')]
    exact ihrest hms hvs hbehind hends

/-! ## Two texts of one expression -/

/-- A text of an expression is read as its term, if each lexeme of the text stands for itself. -/
theorem read?_of_derives {src : Bytes} {k : Nat} {ls : List Lexeme} {e : Expr}
    (hlexes : Lexes src ls) (h : Derives k (.chain .sum) ls e) (hplain : ∀ l ∈ ls, Plain l)
    {ts : List Token} (hts : lexemeTokens? ls = some ts) : read? src = image? e := by
  have hturns := h.turns_self
  have hlegible : ∀ l ∈ ls, Legible l := fun l hl => ⟨Expr.Lexes.stands hlexes l hl, hplain l hl⟩
  have hread : chain? .sum (ts ++ []) = (image? e).map (·, []) :=
    readGoal?_of_derives h hlegible hts behind_nil (by simp [GoalEnds, Ends])
  rw [List.append_nil] at hread
  rw [read?_eq, tokens?_lexes hlexes hturns hplain, hts, Option.bind_some, hread]
  cases image? e <;> rfl

/-- If the text of an expression means something, then no name in it has a digit behind a point. -/
theorem plain_of_read? {src : Bytes} {k : Nat} {ls : List Lexeme} {n : Expr} {e : Term}
    (hlexes : Lexes src ls) (h : Derives k (.chain .sum) ls n) (he : read? src = some e) :
    (∀ l ∈ ls, Plain l) ∧ ∃ ts, lexemeTokens? ls = some ts := by
  have hturns := h.turns_self
  rw [read?_eq] at he
  obtain ⟨ts, hts, he⟩ := Option.bind_eq_some_iff.mp he
  obtain ⟨⟨t, rest⟩, hchain, hfinish⟩ := Option.bind_eq_some_iff.mp he
  obtain rfl : rest = [] := by
    cases rest with
    | nil => rfl
    | cons t rest => cases hfinish
  have hplain := plain_of_seemly hlexes hturns hts (seemly_sum hchain tame_nil)
  refine ⟨hplain, ts, ?_⟩
  rw [← tokens?_lexes hlexes hturns hplain, hts]

/-- A lexeme that is read as some tokens of its own. -/
def HasTokens (l : Lexeme) : Prop := Plain l ∧ ∃ us, tokens? l.text.shown = some us

/-- **The canonical form of an expression means the same**, if its text means anything. -/
theorem agrees_of_format {src out : Bytes} (h : Expr.format src = .ok out) :
    agrees src out = true := by
  rw [agrees]
  cases he : read? src with
  | none => rfl
  | some e =>
    rw [Expr.format] at h
    cases hparse : Expr.parse src with
    | error err =>
      rw [hparse] at h
      cases h
    | ok n =>
      rw [hparse] at h
      obtain rfl : n.print = out := Except.ok.inj h
      obtain ⟨ls, hlexes, hderives, -⟩ := Expr.parse_iff_derives.mp hparse
      obtain ⟨hplain, ts, hts⟩ := plain_of_read? hlexes hderives he
      have himage : image? n = some e := by rw [← read?_of_derives hlexes hderives hplain hts, he]
      -- Printing adds only parentheses to the lexemes of the text.
      have hleaves : n.All HasTokens := hderives.all
        (fun l hl => ⟨hplain l hl, lexemeTokens?_eq_some_iff.mp ⟨ts, hts⟩ l hl⟩) trivial
      have hspelling : ∀ l ∈ n.spelling, HasTokens l :=
        hleaves.spelling ⟨by simp [Plain], _, tokens?_leftParen⟩
          ⟨by simp [Plain], _, tokens?_rightParen⟩ ⟨by simp [Plain], _, tokens?_operator rfl⟩
      obtain ⟨us, hus⟩ := lexemeTokens?_eq_some_iff.mpr fun l hl => (hspelling l hl).2
      have harith := Expr.arithmetic_of_parse hparse
      have hprint := read?_of_derives (Expr.lexes_spelling harith)
        (Expr.derives_spelling harith).goal_sum (fun l hl => (hspelling l hl).1) hus
      simp [hprint, himage]

/-- Parentheses are left out around the product and put around the negation. -/
theorem agrees_of_format_regrouped :
    Expr.format (Bytes.utf8 "((a.b*.5)) /- -x -\n(2.50-(y))")
        = .ok (Bytes.utf8 "(a.b * .5 / -(-x)) - (2.50 - y)") ∧
      read? (Bytes.utf8 "((a.b*.5)) /- -x -\n(2.50-(y))") ≠ none ∧
      agrees (Bytes.utf8 "((a.b*.5)) /- -x -\n(2.50-(y))")
        (Bytes.utf8 "(a.b * .5 / -(-x)) - (2.50 - y)") = true :=
  ⟨by decide +kernel, by decide +kernel, agrees_of_format (by decide +kernel)⟩

end Formula

end LayoutMarkup

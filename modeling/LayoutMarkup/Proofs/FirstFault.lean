import LayoutMarkup.Proofs.Nesting
import Mathlib.Algebra.Order.BigOperators.Group.List

/-!
# Proofs/FirstFault — where an expression goes wrong

A text that is refused, and not because of its depth, goes wrong at the offset that is reported:
what stands before can be gone on with to a sentence of the grammar, and no sentence begins with
that and the lexeme found there (`fault_of_parse`).

The parser sees no further than the next lexeme.  What it has read (`Goal.Takes`) and where it is
stuck (`Goal.FailsAt`) stay the same whatever comes behind that lexeme.  If a sentence began with
the lexemes up to the fault, the parser would get stuck in the sentence as well; but a sentence is
read, or else it is nested too deeply.
-/

namespace LayoutMarkup

namespace Expr

variable {ending : Ending} {k : Nat} {l : Level} {g : Goal}

/-! ## What has been read -/

/-- A chain ends where neither an operator of its own comes next nor one of its operands. -/
theorem Level.stops_of_operand {ts : List Lexeme} (h : ∀ t ∈ ts.head?, l.continues t = false)
    (hoperand : l.operand.Stops ts) : l.Stops ts := by
  rcases l
  · exact fun t ht => ⟨h t ht, hoperand t ht⟩
  · exact h

theorem Goal.Stops.congr {ts us : List Lexeme} (h : g.Stops ts) (hhead : us.head? = ts.head?) :
    g.Stops us := by
  rcases g with _ | (_ | _) | ⟨_ | _, _⟩
  case factor => trivial
  all_goals
    intro t ht
    exact h t (hhead ▸ ht)

/-- Reading the goal ends only where nothing goes on with it. -/
def Goal.EndsStopped (ending : Ending) (k : Nat) (g : Goal) : Prop :=
  ∀ (ts us : List PlacedLexeme) (e : Expr), g.parse ending k ts = .ok (e, us) →
    g.Stops (us.map (·.lexeme))

theorem endsStopped_rest (hoperand : l.operand.EndsStopped ending k) (left : Expr)
    (ts : List PlacedLexeme) : ∀ {us : List PlacedLexeme} {e : Expr},
      l.operand.Stops (ts.map (·.lexeme)) → (Goal.rest l left).parse ending k ts = .ok (e, us) →
      l.Stops (us.map (·.lexeme)) := by
  induction left, ts using Goal.rest_induction ending k l with
  | done left ts hstop =>
    intro us e hts h
    obtain ⟨rfl, rfl⟩ := Prod.mk.inj (Except.ok.inj h)
    refine Level.stops_of_operand (fun t ht => ?_) hts
    rw [List.head?_map] at ht
    obtain ⟨x, hx, rfl⟩ := Option.mem_map.mp ht
    exact hstop x hx
  | broken | tooHigh => exact fun _ => nofun
  | more left op pos ts right ws hop hr _ ih => exact fun _ h => ih (hoperand _ _ _ hr) h

/-- A chain ends where none of its operators follows. -/
theorem endsStopped_chain (hoperand : l.operand.EndsStopped ending k) :
    (Goal.chain l).EndsStopped ending k := by
  intro ts us e h
  rw [Goal.parse_chain] at h
  obtain ⟨⟨left, ws⟩, hr, hrest⟩ := Except.bind_eq_ok_iff.mp h
  exact endsStopped_rest hoperand left ws (hoperand _ _ _ hr) hrest

/-- What is read for the goal derives, and it is read wherever the same lexeme comes next. -/
def Goal.Takes (ending : Ending) (k : Nat) (g : Goal) : Prop :=
  ∀ (ts us : List PlacedLexeme) (e : Expr), g.parse ending k ts = .ok (e, us) →
    ∃ vs, ts = vs ++ us ∧ Derives k g (vs.map (·.lexeme)) e ∧
      ∀ (ending' : Ending) (us' : List PlacedLexeme), us'.head? = us.head? →
        g.parse ending' k (vs ++ us') = .ok (e, us')

/-- If reading the goal ends only where it has to, it depends on the next lexeme alone. -/
theorem takes_of_sound (hsound : g.Sound ending k) (hends : g.EndsStopped ending k)
    (hbefore : g.Before) : g.Takes ending k := by
  intro ts us e h
  obtain ⟨vs, rfl, hderives, hbounded⟩ := hsound _ _ _ h
  refine ⟨vs, rfl, hderives, fun ending' us' hhead => ?_⟩
  refine parse_of_derives ending' hderives (hbounded hbefore) vs us' rfl ?_
  refine (hends _ _ _ h).congr ?_
  rw [List.head?_map, List.head?_map, hhead]

theorem takes_factor (ending : Ending) (k : Nat) : Goal.factor.Takes ending k :=
  takes_of_sound (sound_factor ending k) (fun _ _ _ _ => trivial) trivial

theorem takes_chain (ending : Ending) (k : Nat) : ∀ l, (Goal.chain l).Takes ending k := by
  have hproduct : (Goal.chain .product).Sound ending k := sound_chain (sound_factor ending k)
  have hends : (Goal.chain .product).EndsStopped ending k :=
    endsStopped_chain fun _ _ _ _ => trivial
  rintro (_ | _)
  · exact takes_of_sound (sound_chain hproduct) (endsStopped_chain hends) trivial
  · exact takes_of_sound hproduct hends trivial

theorem takes_operand (ending : Ending) (k : Nat) : ∀ l : Level, l.operand.Takes ending k
  | .sum => takes_chain ending k .product
  | .product => takes_factor ending k

/-! ## Where the parser is stuck -/

/-- The parser is stuck behind `vs`, where `next` comes next: what has been read can be gone on
with, and whatever comes behind that lexeme, it is the one that is reported. -/
structure Goal.FailsAt (k : Nat) (g : Goal) (vs : List PlacedLexeme)
    (next : Option PlacedLexeme) : Prop where
  completable : ∃ more e, (∀ l ∈ more, l.Stands []) ∧ Derives k g (vs.map (·.lexeme) ++ more) e
  stuck : ∀ (ending : Ending) (us : List PlacedLexeme), us.head? = next →
    g.parse ending k (vs ++ us) = .error (unexpected ending us)

/-- Where the goal cannot be read, the parser is stuck, or it gives up on the depth. -/
def Goal.Fails (ending : Ending) (k : Nat) (g : Goal) : Prop :=
  ∀ (ts : List PlacedLexeme) (err : SyntaxError), g.parse ending k ts = .error err →
    err.fault ≠ .tooDeep → ∃ vs us, ts = vs ++ us ∧ g.FailsAt k vs us.head?

theorem head?_append_congr {α : Type} (ys : List α) {us us' : List α} (h : us'.head? = us.head?) :
    (ys ++ us').head? = (ys ++ us).head? := by
  rw [List.head?_append, List.head?_append, h]

/-- If an operand of a chain is stuck, so is the chain. -/
theorem fails_rest (hfails : l.operand.Fails ending k) (left : Expr) (ts : List PlacedLexeme) :
    ∀ {err : SyntaxError}, (Goal.rest l left).parse ending k ts = .error err →
      err.fault ≠ .tooDeep → ∃ vs us, ts = vs ++ us ∧ (Goal.rest l left).FailsAt k vs us.head? := by
  induction left, ts using Goal.rest_induction ending k l with
  | done => exact nofun
  | tooHigh =>
    intro err h hdeep
    obtain rfl := Except.error.inj h
    exact absurd rfl hdeep
  | broken left op pos ts err' hop hr =>
    intro err h hdeep
    obtain rfl := Except.error.inj h
    obtain ⟨vs, us, rfl, ⟨more, e, hmore, hderives⟩, hstuck⟩ := hfails _ _ hr hdeep
    refine ⟨⟨.operator op, pos⟩ :: vs, us, rfl, ⟨more, .binary op left e, hmore, ?_⟩,
      fun ending' us' hhead => ?_⟩
    · simpa using @Derives.more k l op _ _ left _ _ hop hderives .done
    · rw [List.cons_append, Goal.parse_rest_more hop, hstuck ending' us' hhead]
      rfl
  | more left op pos ts right ws hop hr hheight ih =>
    intro err h hdeep
    obtain ⟨xs, rfl, hright, htake⟩ := takes_operand ending k l _ _ _ hr
    obtain ⟨ys, us, rfl, ⟨more, e, hmore, hderives⟩, hstuck⟩ := ih h hdeep
    refine ⟨⟨.operator op, pos⟩ :: (xs ++ ys), us, by simp, ⟨more, e, hmore, ?_⟩,
      fun ending' us' hhead => ?_⟩
    · simpa using Derives.more hop hright hderives
    · rw [List.cons_append, List.append_assoc, Goal.parse_rest_more hop,
        htake ending' (ys ++ us') (head?_append_congr ys hhead)]
      simp only [Except.bind, Nat.not_lt.mpr hheight, if_false]
      exact hstuck ending' us' hhead

/-- If its first operand or a later one is stuck, so is the chain. -/
theorem fails_chain (hfails : l.operand.Fails ending k) : (Goal.chain l).Fails ending k := by
  intro ts err h hdeep
  rw [Goal.parse_chain] at h
  obtain hr | ⟨⟨left, ws⟩, hr, hrest⟩ := Except.bind_eq_error_iff.mp h
  · obtain ⟨vs, us, rfl, ⟨more, e, hmore, hderives⟩, hstuck⟩ := hfails _ _ hr hdeep
    refine ⟨vs, us, rfl, ⟨more, e, hmore, ?_⟩, fun ending' us' hhead => ?_⟩
    · simpa using Derives.chain hderives .done
    · rw [Goal.parse_chain, hstuck ending' us' hhead]
      rfl
  · obtain ⟨xs, rfl, hleft, htake⟩ := takes_operand ending k l _ _ _ hr
    obtain ⟨ys, us, rfl, ⟨more, e, hmore, hderives⟩, hstuck⟩ :=
      fails_rest hfails left ws hrest hdeep
    refine ⟨xs ++ ys, us, by simp, ⟨more, e, hmore, ?_⟩, fun ending' us' hhead => ?_⟩
    · simpa using Derives.chain hleft hderives
    · rw [List.append_assoc, Goal.parse_chain,
        htake ending' (ys ++ us') (head?_append_congr ys hhead)]
      exact hstuck ending' us' hhead

theorem fails_sum_of_factor (h : Goal.factor.Fails ending k) : (Goal.chain .sum).Fails ending k :=
  fails_chain (l := .sum) (fails_chain (l := .product) h)

/-- A number that can stand for what is missing. -/
theorem stands_zero : Lexeme.Stands (.number (Bytes.utf8 "0")) [] :=
  .whole (by decide) (by decide) (by simp)

/-- No factor begins here: the parser is stuck at once. -/
theorem parse_factor_of_not_begins {us : List PlacedLexeme}
    (h : ∀ t ∈ us.head?, beginsOperand t.lexeme = false) :
    Goal.factor.parse ending (k + 1) us = .error (unexpected ending us) := by
  rcases us with _ | ⟨⟨t, pos⟩, us⟩
  · rfl
  · have ht : beginsOperand t = false := h _ rfl
    rcases t with _ | _ | (_ | _ | _ | _ | _) | _ | _
    case number | name | leftParen | operator.sub => contradiction
    all_goals rfl

theorem failsAt_nil {us : List PlacedLexeme}
    (h : ∀ t ∈ us.head?, beginsOperand t.lexeme = false) :
    Goal.factor.FailsAt (k + 1) [] us.head? where
  completable := ⟨[.number (Bytes.utf8 "0")], _, by simpa using stands_zero, .number⟩
  stuck ending us' hhead := parse_factor_of_not_begins (hhead ▸ h)

/-- What is stuck behind a minus is stuck with it. -/
theorem failsAt_neg {vs : List PlacedLexeme} {next : Option PlacedLexeme} (pos : Nat)
    (h : Goal.factor.FailsAt k vs next) :
    Goal.factor.FailsAt (k + 1) (⟨.operator .sub, pos⟩ :: vs) next := by
  obtain ⟨⟨more, e, hmore, hderives⟩, hstuck⟩ := h
  refine ⟨⟨more, .neg e, hmore, .neg hderives⟩, fun ending us hhead => ?_⟩
  rw [List.cons_append, Goal.parse_neg, hstuck ending us hhead]
  rfl

/-- Inside parentheses, what is missing comes with the closing one. -/
theorem failsAt_paren {vs : List PlacedLexeme} {next : Option PlacedLexeme} (pos : Nat)
    (h : (Goal.chain .sum).FailsAt k vs next) :
    Goal.factor.FailsAt (k + 1) (⟨.leftParen, pos⟩ :: vs) next := by
  obtain ⟨⟨more, e, hmore, hderives⟩, hstuck⟩ := h
  refine ⟨⟨more ++ [.rightParen], e, ?_, ?_⟩, fun ending us hhead => ?_⟩
  · exact List.forall_mem_append.mpr ⟨hmore, by simpa using Lexeme.Stands.rightParen⟩
  · simpa using Derives.paren hderives
  · rw [List.cons_append, Goal.parse_paren, hstuck ending us hhead]
    rfl

/-- What stands in parentheses is complete, but no closing one follows. -/
theorem failsAt_unclosed {vs us : List PlacedLexeme} {e : Expr} (pos : Nat)
    (hderives : Derives k (.chain .sum) (vs.map (·.lexeme)) e)
    (htake : ∀ (ending : Ending) (us' : List PlacedLexeme), us'.head? = us.head? →
      (Goal.chain .sum).parse ending k (vs ++ us') = .ok (e, us'))
    (hopen : ∀ t ∈ us.head?, t.lexeme ≠ .rightParen) :
    Goal.factor.FailsAt (k + 1) (⟨.leftParen, pos⟩ :: vs) us.head? := by
  refine ⟨⟨[.rightParen], e, by simpa using Lexeme.Stands.rightParen, .paren hderives⟩,
    fun ending us' hhead => ?_⟩
  rw [List.cons_append, Goal.parse_paren, htake ending us' hhead]
  rw [← hhead] at hopen
  rcases us' with _ | ⟨⟨t, pos'⟩, us'⟩
  · rfl
  · have ht : t ≠ .rightParen := hopen _ rfl
    rcases t with _ | _ | _ | _ | _
    case rightParen => contradiction
    all_goals rfl

theorem fails_factor (ending : Ending) : ∀ k, Goal.factor.Fails ending k
  | 0 => by
    intro ts err h hdeep
    obtain rfl := Except.error.inj h
    exact absurd rfl hdeep
  | k + 1 => by
    have ih := fails_factor ending k
    intro ts err h hdeep
    by_cases hbegins : ∀ t ∈ ts.head?, beginsOperand t.lexeme = false
    · exact ⟨[], ts, rfl, failsAt_nil hbegins⟩
    obtain ⟨⟨t, pos⟩, ws, rfl, ht⟩ : ∃ t ws, ts = t :: ws ∧ beginsOperand t.lexeme = true := by
      rcases ts with _ | ⟨t, ws⟩
      · exact absurd (by simp) hbegins
      · exact ⟨t, ws, rfl, by simpa using hbegins⟩
    rcases t with _ | _ | (_ | _ | _ | _ | _) | _ | _
    case operator.sub =>
      rw [Goal.parse_neg] at h
      obtain ⟨vs, us, rfl, hfails⟩ := ih _ _ (Except.map_eq_error_iff.mp h) hdeep
      exact ⟨_, us, rfl, failsAt_neg pos hfails⟩
    case leftParen =>
      rw [Goal.parse_paren] at h
      obtain hr | ⟨⟨e, us⟩, hr, hclosing⟩ := Except.bind_eq_error_iff.mp h
      · obtain ⟨vs, us, rfl, hfails⟩ := fails_sum_of_factor ih _ _ hr hdeep
        exact ⟨_, us, rfl, failsAt_paren pos hfails⟩
      · obtain ⟨vs, rfl, hderives, htake⟩ := takes_chain ending k .sum _ _ _ hr
        refine ⟨_, us, rfl, failsAt_unclosed pos hderives htake fun t ht hclose => ?_⟩
        obtain ⟨us, rfl⟩ := List.head?_eq_some_iff.mp ht
        obtain ⟨_, pos'⟩ := t
        obtain rfl : _ = Lexeme.rightParen := hclose
        contradiction
    all_goals contradiction

/-! ## Sentences -/

/-- The lexemes are a sentence of the grammar, nested as deeply as it may be. -/
def Sentence (ls : List Lexeme) : Prop := ∃ e ds, Reads .sum ls e ds

theorem sentence_of_derives {ls : List Lexeme} {e : Expr} (h : Derives k (.chain .sum) ls e) :
    Sentence ls := by
  obtain ⟨ds, hreads, -⟩ := readsWithin_of_derives h
  exact ⟨e, ds, hreads⟩

/-- A sentence is read to its end, or else it is nested too deeply. -/
theorem Sentence.orTooDeep {ts : List PlacedLexeme} (h : Sentence (ts.map (·.lexeme)))
    (ending : Ending) (k : Nat) :
    ∃ e, OrTooDeep ((Goal.chain .sum).parse ending k ts) (e, []) := by
  obtain ⟨e, ds, hreads⟩ := h
  have hds : ∀ d ∈ ds, d < ds.sum + 1 := fun d hd =>
    Nat.lt_succ_of_le (List.single_le_sum (fun _ _ => Nat.zero_le _) d hd)
  have hread := orTooDeep_of_derives ending (hreads.derives hds) k ts [] rfl (Level.stops_nil .sum)
  rw [List.append_nil] at hread
  exact ⟨e, hread⟩

/-- The parser is not stuck inside a sentence. -/
theorem Goal.FailsAt.not_sentence {vs us : List PlacedLexeme}
    (h : (Goal.chain .sum).FailsAt k vs us.head?) : ¬ Sentence ((vs ++ us).map (·.lexeme)) := by
  intro hs
  obtain ⟨e, he⟩ := hs.orTooDeep (.complete 0) k
  rw [h.stuck (.complete 0) us rfl] at he
  obtain he | ⟨pos, he⟩ := he
  · contradiction
  · rcases us with _ | ⟨t, us⟩ <;> cases he

/-- What has been read is not all of the text. -/
theorem conclude_error {e : Expr} {us : List PlacedLexeme} {err : SyntaxError}
    (h : conclude ending (e, us) = .error err) :
    err = unexpected ending us ∧ (us ≠ [] ∨ ∀ n, ending ≠ .complete n) := by
  rcases us with _ | ⟨t, us⟩
  · rcases ending with n | err'
    · contradiction
    · exact ⟨(Except.error.inj h).symm, .inr nofun⟩
  · exact ⟨(Except.error.inj h).symm, .inl nofun⟩

/-- **Where a text goes wrong, its lexemes fall into two parts**: the first can be gone on with, and
the second begins with what cannot stand there. -/
theorem exists_fault {src : Bytes} {err : SyntaxError} (h : parse src = .error err)
    (hdeep : err.fault ≠ .tooDeep) :
    ∃ before after, (Scan.ofText src).lexemes = before ++ after ∧
      err = unexpected (Scan.ofText src).ending after ∧
      (∃ more, (∀ l ∈ more, l.Stands []) ∧ Sentence (before.map (·.lexeme) ++ more)) ∧
      ∀ us, us.head? = after.head? → us ≠ [] ∨ (∃ n, (Scan.ofText src).ending = .complete n) →
        ¬ Sentence ((before ++ us).map (·.lexeme)) := by
  rw [parse_eq_bind] at h
  obtain hr | ⟨⟨e, after⟩, hr, hconclude⟩ := Except.bind_eq_error_iff.mp h
  · obtain ⟨before, after, hsplit, hfails⟩ := fails_sum_of_factor (fails_factor _ _) _ _ hr hdeep
    rw [hsplit, hfails.stuck _ after rfl] at hr
    obtain ⟨more, e, hmore, hderives⟩ := hfails.completable
    refine ⟨before, after, hsplit, (Except.error.inj hr).symm,
      ⟨more, hmore, sentence_of_derives hderives⟩, fun us hhead _ => ?_⟩
    rw [← hhead] at hfails
    exact hfails.not_sentence
  · obtain ⟨before, hsplit, hderives, htake⟩ := takes_chain _ _ .sum _ _ _ hr
    obtain ⟨herr, hafter⟩ := conclude_error hconclude
    refine ⟨before, after, hsplit, herr, ⟨[], by simp, ?_⟩, fun us hhead hend hs => ?_⟩
    · rw [List.append_nil]
      exact sentence_of_derives hderives
    · obtain ⟨e', he' | ⟨pos, he'⟩⟩ := hs.orTooDeep (Scan.ofText src).ending maxDepth
      · rw [htake _ us hhead] at he'
        obtain ⟨-, rfl⟩ := Prod.mk.inj (Except.ok.inj he')
        obtain rfl := List.head?_eq_none_iff.mp hhead.symm
        obtain hne | ⟨n, hn⟩ := hend
        · exact hne rfl
        · exact hafter.elim (fun hne => hne rfl) fun hbroken => hbroken n hn
      · rw [htake _ us hhead] at he'
        contradiction

end Expr

/-! ## Offsets -/

namespace Scan

/-- The offsets of the lexemes, and of the end. -/
def offsets (s : Scan) : List Nat := s.lexemes.map (·.pos) ++ [s.ending.pos]

/-- The lexemes before an offset. -/
def before (s : Scan) (pos : Nat) : List Lexeme := (s.lexemes.filter (·.pos < pos)).map (·.lexeme)

/-- Each lexeme stands behind the one before it. -/
theorem pairwise_offsets (c : Cursor) :
    (scanFrom c).offsets.Pairwise (· < ·) ∧ ∀ p ∈ (scanFrom c).offsets, c.pos ≤ p := by
  induction c using scanFrom_induction with
  | complete | broken => simp [offsets, Ending.pos]
  | cons pos w l rest _ hl ih =>
    have hpos := List.length_pos_iff.mpr hl.text_ne_nil
    obtain ⟨hsorted, hge⟩ := ih
    have hlater : ∀ p ∈ (scanFrom ⟨pos + w.length + l.text.length, rest⟩).offsets,
        pos + w.length < p := fun p hp =>
      Nat.lt_of_lt_of_le (Nat.lt_add_of_pos_right hpos) (hge p hp)
    refine ⟨List.pairwise_cons.mpr ⟨hlater, hsorted⟩,
      List.forall_mem_cons.mpr ⟨Nat.le_add_right _ _, fun p hp => ?_⟩⟩
    exact Nat.le_trans (Nat.le_add_right _ _) (Nat.le_of_lt (hlater p hp))

variable {s : Scan} {vs us : List PlacedLexeme}

/-- Where the lexemes are split, those in front stand before the next offset, and all that follows
stands behind it. -/
theorem offsets_split (h : s.offsets.Pairwise (· < ·)) (hsplit : s.lexemes = vs ++ us) :
    (∀ t ∈ vs, t.pos < Expr.nextPos s.ending us) ∧
      (∀ t ∈ us.tail, Expr.nextPos s.ending us < t.pos) ∧
      (us ≠ [] → Expr.nextPos s.ending us < s.ending.pos) := by
  rw [offsets, hsplit, List.map_append, List.append_assoc, List.pairwise_append] at h
  obtain ⟨-, hafter, hcross⟩ := h
  rw [List.forall_mem_map] at hcross
  rcases us with _ | ⟨x, us⟩
  · exact ⟨fun t ht => hcross t ht _ List.mem_cons_self, by simp, fun hne => absurd rfl hne⟩
  · rw [List.map_cons, List.cons_append, List.pairwise_cons, List.forall_mem_append,
      List.forall_mem_map, List.forall_mem_singleton] at hafter
    obtain ⟨hlater, -⟩ := hafter
    exact ⟨fun t ht => hcross t ht _ List.mem_cons_self, hlater.1, fun _ => hlater.2⟩

/-- The lexemes before the next offset are those in front. -/
theorem before_nextPos (h : s.offsets.Pairwise (· < ·)) (hsplit : s.lexemes = vs ++ us) :
    s.before (Expr.nextPos s.ending us) = vs.map (·.lexeme) := by
  obtain ⟨hfront, hlater, -⟩ := offsets_split h hsplit
  have hvs : vs.filter (·.pos < Expr.nextPos s.ending us) = vs :=
    List.filter_eq_self.mpr fun t ht => decide_eq_true (hfront t ht)
  have hus : us.filter (·.pos < Expr.nextPos s.ending us) = [] := by
    rw [List.filter_eq_nil_iff]
    rcases us with _ | ⟨x, us⟩
    · simp
    · refine List.forall_mem_cons.mpr ⟨by simp [Expr.nextPos], fun t ht => ?_⟩
      simpa using Nat.le_of_lt (hlater t ht)
  rw [before, hsplit, List.filter_append, hvs, hus, List.append_nil]

/-- The lexeme at the next offset is the next one. -/
theorem head?_of_pos (h : s.offsets.Pairwise (· < ·)) (hsplit : s.lexemes = vs ++ us)
    {t : PlacedLexeme} (ht : t ∈ s.lexemes) (hpos : t.pos = Expr.nextPos s.ending us) :
    us.head? = some t := by
  obtain ⟨hfront, hlater, -⟩ := offsets_split h hsplit
  rw [hsplit] at ht
  obtain hvs | hus := List.mem_append.mp ht
  · exact absurd hpos (Nat.ne_of_lt (hfront t hvs))
  · rcases us with _ | ⟨x, us⟩
    · exact absurd hus List.not_mem_nil
    · obtain rfl | htail := List.mem_cons.mp hus
      · rfl
      · exact absurd hpos (Nat.ne_of_gt (hlater t htail))

end Scan

namespace Expr

/-- An unexpected lexeme is reported where it begins, the end of the text where it is. -/
theorem unexpected_pos (ending : Ending) (us : List PlacedLexeme) :
    (unexpected ending us).pos = nextPos ending us := by
  rcases us with _ | _ <;> rcases ending with _ | _ <;> rfl

theorem nextPos_mem_offsets {s : Scan} {vs us : List PlacedLexeme}
    (hsplit : s.lexemes = vs ++ us) : nextPos s.ending us ∈ s.offsets := by
  rw [Scan.offsets, hsplit]
  rcases us with _ | ⟨x, us⟩ <;> simp [nextPos]

/-- **A syntax error stands where the text goes wrong.**  The offset is that of a lexeme, of the
end, or of something that is no lexeme; the lexemes before it can be gone on with to a sentence; and
no sentence begins with them and the lexeme there, nor do they make one if the text ends there. -/
theorem fault_of_parse {src : Bytes} {err : SyntaxError} (h : parse src = .error err)
    (hdeep : err.fault ≠ .tooDeep) :
    err.pos ∈ (Scan.ofText src).offsets ∧
      (∃ more, (∀ l ∈ more, l.Stands []) ∧
        Sentence ((Scan.ofText src).before err.pos ++ more)) ∧
      (∀ t ∈ (Scan.ofText src).lexemes, t.pos = err.pos →
        ∀ more, ¬ Sentence ((Scan.ofText src).before err.pos ++ t.lexeme :: more)) ∧
      ((Scan.ofText src).ending = .complete err.pos →
        ¬ Sentence ((Scan.ofText src).before err.pos)) := by
  obtain ⟨before, after, hsplit, rfl, hmore, hnone⟩ := exists_fault h hdeep
  have hsorted : (Scan.ofText src).offsets.Pairwise (· < ·) :=
    (Scan.pairwise_offsets (.start src)).1
  rw [unexpected_pos, Scan.before_nextPos hsorted hsplit]
  refine ⟨nextPos_mem_offsets hsplit, hmore, fun t ht hpos more => ?_, fun hend => ?_⟩
  · have hhead := Scan.head?_of_pos hsorted hsplit ht hpos
    have hno := hnone (t :: more.map fun l => ⟨l, 0⟩) hhead.symm (.inl nofun)
    simpa [Function.comp_def] using hno
  · have hpos : (Scan.ofText src).ending.pos = nextPos (Scan.ofText src).ending after :=
      congrArg Ending.pos hend
    obtain rfl : after = [] := by
      by_contra hne
      exact Nat.ne_of_gt ((Scan.offsets_split hsorted hsplit).2.2 hne) hpos
    simpa using hnone [] rfl (.inr ⟨_, hend⟩)

/-- The closing parenthesis is the first fault; that the text goes on with something that is no
lexeme does not matter. -/
theorem fault_of_parse_parenthesis :
    parse (Bytes.utf8 "(a * -) + $") = .error ⟨6, .unexpectedToken (Bytes.utf8 ")")⟩ ∧
      (∃ more, (∀ l ∈ more, l.Stands []) ∧ Sentence
        (.leftParen :: .name (Bytes.utf8 "a") :: .operator .mul :: .operator .sub :: more)) ∧
      ∀ more, ¬ Sentence (.leftParen :: .name (Bytes.utf8 "a") :: .operator .mul ::
        .operator .sub :: .rightParen :: more) := by
  have hparse : parse (Bytes.utf8 "(a * -) + $")
      = .error ⟨6, .unexpectedToken (Bytes.utf8 ")")⟩ := by
    decide +kernel
  have hbefore : (Scan.ofText (Bytes.utf8 "(a * -) + $")).before 6
      = [.leftParen, .name (Bytes.utf8 "a"), .operator .mul, .operator .sub] := by
    decide +kernel
  have hthere : ⟨.rightParen, 6⟩ ∈ (Scan.ofText (Bytes.utf8 "(a * -) + $")).lexemes := by
    decide +kernel
  obtain ⟨-, hmore, hnone, -⟩ := fault_of_parse hparse (by decide)
  rw [hbefore] at hmore hnone
  exact ⟨hparse, hmore, hnone _ hthere rfl⟩

end Expr

end LayoutMarkup

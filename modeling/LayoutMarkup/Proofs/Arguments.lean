import LayoutMarkup.Proofs.Settling

/-!
# Proofs/Arguments — which calls there are

A call is a name and some arguments.  What can be an argument is said here by counting, without a
scanner: no beginning of it has more closing than opening parentheses, the whole has as many of the
one as of the other, and before each comma more have been opened than closed.

The calls that texts are read as are exactly these, and each is what its own canonical form is read
as (`Call.round_trip`).
-/

namespace LayoutMarkup

namespace Call

/-! ## Arguments -/

/-- The text can be an argument: it is not empty, there is no white space around it, its parentheses
match, and no comma stands outside of them. -/
structure IsArgument (s : Bytes) : Prop where
  ne_nil : s ≠ []
  trim : s.trimSpace = s
  /-- Nothing is closed that is not open. -/
  closing : ∀ p, p <+: s → p.count ')'.toUInt8 ≤ p.count '('.toUInt8
  /-- All that is opened is closed. -/
  balance : s.count '('.toUInt8 = s.count ')'.toUInt8
  /-- A comma stands where something is open. -/
  comma : ∀ p, p ++ [comma] <+: s → p.count ')'.toUInt8 < p.count '('.toUInt8

/-- The call has a name and arguments, each of which can be one. -/
structure WellFormed (c : Call) : Prop where
  name : c.name.IsIdentifier
  ne_nil : c.args ≠ []
  args : ∀ a ∈ c.args, IsArgument a

/-! ## Scanning and counting -/

/-- Parentheses match in the text if `depth` of them are open before it, and leave `final` of them
open; commas stand inside of some. -/
structure Nests (depth final : Nat) (s : Bytes) : Prop where
  closing : ∀ p, p <+: s → p.count ')'.toUInt8 ≤ depth + p.count '('.toUInt8
  balance : depth + s.count '('.toUInt8 = final + s.count ')'.toUInt8
  comma : ∀ p, p ++ [comma] <+: s → p.count ')'.toUInt8 < depth + p.count '('.toUInt8

variable {depth final : Nat} {b : UInt8} {s : Bytes}

theorem nests_nil : Nests depth final [] ↔ depth = final := by
  refine ⟨fun h => h.balance, fun h => ⟨fun p hp => ?_, h, fun p hp => ?_⟩⟩
  · rw [List.prefix_nil.mp hp]
    exact Nat.zero_le _
  · exact absurd (List.prefix_nil.mp hp) (by simp)

theorem count_cons_eq (x b : UInt8) (s : Bytes) :
    (b :: s).count x = List.count x [b] + s.count x := by
  rw [← List.count_append, List.singleton_append]

/-- The scan goes on over a byte unless it closes more than is open or is a comma outside all
parentheses. -/
theorem stops_eq_false_iff : stops depth b = false ↔
    List.count ')'.toUInt8 [b] ≤ depth + List.count '('.toUInt8 [b] ∧
      (b = Call.comma → 0 < depth) := by
  by_cases hclosing : b = ')'.toUInt8
  · subst hclosing
    have hcount : List.count '('.toUInt8 [')'.toUInt8] = 0 := rfl
    have hcomma : ')'.toUInt8 ≠ Call.comma := by decide
    simp [stops, hcount, hcomma, Nat.one_le_iff_ne_zero]
  · simp [stops, hclosing, Nat.pos_iff_ne_zero]

/-- The depth changes with the counts. -/
theorem step_add_count (h : stops depth b = false) : step depth b + List.count ')'.toUInt8 [b]
    = depth + List.count '('.toUInt8 [b] := by
  rw [step]
  by_cases hopening : b = '('.toUInt8
  · subst hopening
    rfl
  · by_cases hclosing : b = ')'.toUInt8
    · subst hclosing
      have hpos := (stops_eq_false_iff.mp h).1
      simp_all
    · simp [hopening, hclosing]

/-- The scanner goes on behind a byte just where the counts allow it. -/
theorem nests_cons :
    Nests depth final (b :: s) ↔ stops depth b = false ∧ Nests (step depth b) final s := by
  constructor
  · intro h
    have hfirst := h.closing [b] (List.cons_prefix_cons.mpr ⟨rfl, List.nil_prefix⟩)
    have hstop : stops depth b = false := by
      refine stops_eq_false_iff.mpr ⟨hfirst, ?_⟩
      rintro rfl
      exact h.comma [] (List.cons_prefix_cons.mpr ⟨rfl, List.nil_prefix⟩)
    have hstep := step_add_count hstop
    refine ⟨hstop, fun p hp => ?_, ?_, fun p hp => ?_⟩
    · have hle := h.closing (b :: p) (List.cons_prefix_cons.mpr ⟨rfl, hp⟩)
      rw [count_cons_eq ')'.toUInt8, count_cons_eq '('.toUInt8] at hle
      omega
    · have heq := h.balance
      rw [count_cons_eq ')'.toUInt8, count_cons_eq '('.toUInt8] at heq
      omega
    · have hlt := h.comma (b :: p) (List.cons_prefix_cons.mpr ⟨rfl, hp⟩)
      rw [count_cons_eq ')'.toUInt8, count_cons_eq '('.toUInt8] at hlt
      omega
  · rintro ⟨hstop, h⟩
    have hstep := step_add_count hstop
    refine ⟨fun p hp => ?_, ?_, fun p hp => ?_⟩
    · rcases List.prefix_cons_iff.mp hp with rfl | ⟨q, rfl, hq⟩
      · exact Nat.zero_le _
      · have hle := h.closing q hq
        rw [count_cons_eq ')'.toUInt8, count_cons_eq '('.toUInt8]
        omega
    · have heq := h.balance
      rw [count_cons_eq ')'.toUInt8, count_cons_eq '('.toUInt8]
      omega
    · rcases p with _ | ⟨x, p⟩
      · exact (stops_eq_false_iff.mp hstop).2 (List.cons_prefix_cons.mp hp).1.symm
      · obtain ⟨rfl, hq⟩ := List.cons_prefix_cons.mp hp
        have hlt := h.comma p hq
        rw [count_cons_eq ')'.toUInt8, count_cons_eq '('.toUInt8]
        omega

/-- The scan ends at a depth exactly if the parentheses count up to it. -/
theorem depth?_eq_some_iff : depth? depth s = some final ↔ Nests depth final s := by
  induction s generalizing depth with
  | nil => rw [depth?, nests_nil, Option.some.injEq]
  | cons b s ih =>
    rw [depth?, nests_cons, ← ih]
    split
    · next h => simp [h]
    · next h => simp [h]

theorem isArgument_iff : IsArgument s ↔ s.Trimmed ∧ Closed s := by
  rw [Closed, depth?_eq_some_iff]
  constructor
  · intro h
    refine ⟨⟨h.ne_nil, h.trim⟩, fun p hp => ?_, ?_, fun p hp => ?_⟩
    · simpa using h.closing p hp
    · simpa using h.balance
    · simpa using h.comma p hp
  · rintro ⟨htrimmed, hnests⟩
    refine ⟨htrimmed.ne_nil, htrimmed.trim, fun p hp => ?_, ?_, fun p hp => ?_⟩
    · simpa using hnests.closing p hp
    · simpa using hnests.balance
    · simpa using hnests.comma p hp

/-- Counting parentheses and scanning for them come to the same. -/
theorem wellFormed_iff {c : Call} : c.WellFormed ↔ c.Sound := by
  constructor
  · intro h
    exact ⟨h.name, h.ne_nil, fun a ha => (isArgument_iff.mp (h.args a ha)).1,
      fun a ha => (isArgument_iff.mp (h.args a ha)).2⟩
  · intro h
    exact ⟨h.name, h.ne_nil, fun a ha => isArgument_iff.mpr ⟨h.trimmed a ha, h.closed a ha⟩⟩

/-! ## Reading and printing -/

theorem format_eq_ok_iff {src out : Bytes} :
    format src = .ok out ↔ ∃ c, parse src = .ok c ∧ c.print = out := by
  rw [format, Except.map_eq_ok_iff]

/-- **The canonical form of a call is its own canonical form.** -/
theorem format_of_format_call {src out : Bytes} (h : format src = .ok out) :
    format out = .ok out := by
  obtain ⟨c, hparse, rfl⟩ := format_eq_ok_iff.mp h
  exact format_eq_ok_iff.mpr ⟨c, (sound_of_parse hparse).parse_canonical, rfl⟩

/-- **Calls can be read and printed.**  What a text is read as is a name with arguments; every name
with arguments is what its canonical form is read as; and a canonical form has no other one. -/
theorem round_trip :
    (∀ src c, parse src = .ok c → c.WellFormed) ∧ (∀ c, c.WellFormed → parse c.print = .ok c) ∧
      ∀ src out, format src = .ok out → format out = .ok out :=
  ⟨fun _ _ h => wellFormed_iff.mpr (sound_of_parse h),
    fun _ h => (wellFormed_iff.mp h).parse_canonical, fun _ _ => format_of_format_call⟩

/-- A comma stands inside of an argument, and the white space around the arguments is of two
kinds. -/
theorem round_trip_nested :
    ∃ c : Call, parse (Bytes.utf8 "\trgb (f(a,b) ,\u00a0 ü.d)\n") = .ok c ∧ c.WellFormed ∧
      parse c.print = .ok c ∧
      format (Bytes.utf8 "rgb(f(a,b), ü.d)") = .ok (Bytes.utf8 "rgb(f(a,b), ü.d)") := by
  have hparse : parse (Bytes.utf8 "\trgb (f(a,b) ,\u00a0 ü.d)\n")
      = .ok ⟨Bytes.utf8 "rgb", [Bytes.utf8 "f(a,b)", Bytes.utf8 "ü.d"]⟩ := by
    decide +kernel
  have hformat : format (Bytes.utf8 "\trgb (f(a,b) ,\u00a0 ü.d)\n")
      = .ok (Bytes.utf8 "rgb(f(a,b), ü.d)") := by
    decide +kernel
  have hformed := round_trip.1 _ _ hparse
  exact ⟨_, hparse, hformed, round_trip.2.1 _ hformed, round_trip.2.2 _ _ hformat⟩

end Call

end LayoutMarkup

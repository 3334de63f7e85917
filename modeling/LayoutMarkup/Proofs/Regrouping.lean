import LayoutMarkup.Proofs.Nesting

/-!
# Proofs/Regrouping — formatting an expression again

Printing adds parentheses: around the operand of a minus, and where the operators alone say how to
group.  The parser counts them, so that what has been formatted can be nested too deeply to be
read again.  `enclosures` says how deeply each number and name is nested in the canonical form.  Two
theorems:

* `reads_spelling` — these are the minuses and parentheses that the grammar finds there.  It can
  find no others, since they are determined by the lexemes and the expression (`Encloses.unique`).
* `reformat_iff` — what has been formatted stays as it is if there are at most 255 of them around
  each number and name, and is refused otherwise.
-/

namespace LayoutMarkup

/-- Of each number and name among the lexemes, how many parentheses are open there, if `k` of them
are open at the beginning. -/
def Lexeme.openParens : Nat → List Lexeme → List Nat
  | _, [] => []
  | k, .number _ :: ls | k, .name _ :: ls => k :: openParens k ls
  | k, .operator _ :: ls => openParens k ls
  | k, .leftParen :: ls => openParens (k + 1) ls
  | k, .rightParen :: ls => openParens (k - 1) ls

namespace Expr

/-! ## Minuses and parentheses -/

/-- Of each number and name, how many minuses it is inside. -/
def minuses : Expr → List Nat
  | number _ | name _ => [0]
  | neg e => e.minuses.map (· + 1)
  | binary _ l r => l.minuses ++ r.minuses
  | call _ => []

/-- The numbers and names of the expression stand among the lexemes, each with this many minuses and
parentheses around it.  The lexemes close the parentheses that they open. -/
def Encloses (ls : List Lexeme) (e : Expr) (ds : List Nat) : Prop :=
  ∃ ps : List Nat, e.minuses.length = ps.length ∧ ds = List.zipWith (· + ·) e.minuses ps ∧
    ∀ k ms, Lexeme.openParens k (ls ++ ms) = ps.map (k + ·) ++ Lexeme.openParens k ms

section

variable {ls ms : List Lexeme} {e l r : Expr} {ds ds' : List Nat}

theorem encloses_number (text : Bytes) : Encloses [.number text] (number text) [0] :=
  ⟨[0], rfl, rfl, fun _ _ => rfl⟩

theorem encloses_name (text : Bytes) : Encloses [.name text] (name text) [0] :=
  ⟨[0], rfl, rfl, fun _ _ => rfl⟩

theorem Encloses.neg (h : Encloses ls e ds) :
    Encloses (.operator .sub :: ls) (.neg e) (ds.map (· + 1)) := by
  obtain ⟨ps, hlength, rfl, hopen⟩ := h
  refine ⟨ps, by rw [minuses, List.length_map, hlength], ?_, hopen⟩
  rw [minuses, List.map_zipWith, List.zipWith_map_left]
  simp only [Nat.add_right_comm]

theorem Encloses.parenthesized (h : Encloses ls e ds) :
    Encloses (Lexeme.parenthesized ls) e (ds.map (· + 1)) := by
  obtain ⟨ps, hlength, rfl, hopen⟩ := h
  refine ⟨ps.map (1 + ·), by rw [List.length_map, hlength], ?_, fun k ms => ?_⟩
  · rw [List.map_zipWith, List.zipWith_map_right]
    simp only [Nat.add_assoc, Nat.add_comm]
  · rw [Lexeme.parenthesized, List.cons_append, List.append_assoc, Lexeme.openParens, hopen,
      List.map_map]
    simp only [Function.comp_def, ← Nat.add_assoc]
    rfl

/-- An operand, whether or not it is put in parentheses. -/
theorem Encloses.grouped (grouped : Bool) (h : Encloses ls e ds) :
    Encloses (if grouped then Lexeme.parenthesized ls else ls) e
      (if grouped then ds.map (· + 1) else ds) := by
  cases grouped with
  | true => exact h.parenthesized
  | false => exact h

theorem Encloses.binary (hl : Encloses ls l ds) (op : Operator) (hr : Encloses ms r ds') :
    Encloses (ls ++ .operator op :: ms) (.binary op l r) (ds ++ ds') := by
  obtain ⟨ps, hlength, rfl, hopen⟩ := hl
  obtain ⟨ps', hlength', rfl, hopen'⟩ := hr
  refine ⟨ps ++ ps', ?_, ?_, fun k rest => ?_⟩
  · rw [minuses, List.length_append, List.length_append, hlength, hlength']
  · rw [minuses, List.zipWith_append hlength]
  · rw [List.append_assoc, hopen, List.cons_append, Lexeme.openParens, hopen', List.map_append,
      List.append_assoc]

/-- The lexemes and the expression leave no choice. -/
theorem Encloses.unique (h : Encloses ls e ds) (h' : Encloses ls e ds') : ds = ds' := by
  obtain ⟨ps, -, rfl, hopen⟩ := h
  obtain ⟨ps', -, rfl, hopen'⟩ := h'
  have heq := (hopen 0 []).symm.trans (hopen' 0 [])
  simp only [Nat.zero_add, List.map_id', List.append_left_inj] at heq
  rw [heq]

/-- The grammar counts the minuses and parentheses that are there. -/
theorem Reads.encloses {p : Phrase} (h : Reads p ls e ds) : Encloses ls e ds := by
  induction h with
  | number => exact encloses_number _
  | name => exact encloses_name _
  | neg _ ih => exact ih.neg
  | paren _ ih => exact ih.parenthesized
  | ofFactor _ ih | ofProduct _ ih => exact ih
  | times _ _ _ ihleft ihright | plus _ _ _ ihleft ihright => exact ihleft.binary _ ihright

end

/-! ## The canonical form -/

/-- Of each number and name in the canonical form, how many minuses and parentheses stand around
it. -/
def enclosures : Expr → List Nat
  | number _ | name _ => [0]
  | neg e =>
    (if e.groupsUnderNeg then e.enclosures.map (· + 1) else e.enclosures).map (· + 1)
  | binary op l r =>
    (if l.groupsOnLeft op then l.enclosures.map (· + 1) else l.enclosures) ++
      if r.groupsOnRight then r.enclosures.map (· + 1) else r.enclosures
  | call _ => []

theorem encloses_spelling (e : Expr) : Encloses e.spelling e e.enclosures := by
  induction e with
  | number text => exact encloses_number text
  | name text => exact encloses_name text
  | call c => exact ⟨[], rfl, rfl, fun _ _ => rfl⟩
  | neg e ih => exact (ih.grouped _).neg
  | binary op l r ihl ihr => exact (ihl.grouped _).binary op (ihr.grouped _)

/-- **What the grammar finds around the numbers and names of the canonical form.** -/
theorem reads_spelling {e : Expr} (he : e.Arithmetic) :
    Reads .sum e.spelling e e.enclosures := by
  obtain ⟨ds, hreads, -⟩ := readsWithin_of_derives (derives_spelling he).goal_sum
  rwa [hreads.encloses.unique (encloses_spelling e)] at hreads

/-! ## How many there can be -/

/-- Is it the negation of something? -/
def isNeg : Expr → Bool
  | neg _ => true
  | _ => false

/-- How often, on the way down to a number or name, a minus comes right behind another. -/
def doubledMinuses : Expr → Nat
  | number _ | name _ | call _ => 0
  | neg e => e.doubledMinuses + e.isNeg.toNat
  | binary _ l r => max l.doubledMinuses r.doubledMinuses

theorem toNat_groupsUnderNeg (e : Expr) :
    e.groupsUnderNeg.toNat = e.groupsOnRight.toNat + e.isNeg.toNat := by
  cases e <;> rfl

theorem toNat_groupsOnLeft_le (op : Operator) (e : Expr) :
    (e.groupsOnLeft op).toNat ≤ e.groupsOnRight.toNat := by
  rw [groupsOnLeft, groupsOnRight]
  cases e.operator? with
  | none => exact Nat.le_refl 0
  | some op' => exact Bool.toNat_le _

theorem exists_of_mem_grouped {grouped : Bool} {ds : List Nat} {d : Nat}
    (h : d ∈ if grouped then ds.map (· + 1) else ds) : ∃ d' ∈ ds, d = d' + grouped.toNat := by
  cases grouped with
  | true =>
    obtain ⟨d', hd', rfl⟩ := List.mem_map.mp h
    exact ⟨d', hd', rfl⟩
  | false => exact ⟨d, h, rfl⟩

/-- Every level of the expression adds a minus or a pair of parentheses, and one more if a minus
comes behind a minus.  A binary expression adds its parentheses only if it is an operand. -/
theorem enclosures_bound {e : Expr} {d : Nat} (h : d ∈ e.enclosures) :
    d + 1 + e.groupsOnRight.toNat ≤ e.height + e.doubledMinuses := by
  induction e generalizing d with
  | number | name =>
    obtain rfl := List.mem_singleton.mp h
    exact Nat.le_refl 1
  | call => cases h
  | neg e ih =>
    obtain ⟨_, hgrouped, rfl⟩ := List.mem_map.mp h
    obtain ⟨d, hd, rfl⟩ := exists_of_mem_grouped hgrouped
    have hinner := ih hd
    have hnone : e.neg.groupsOnRight.toNat = 0 := rfl
    rw [hnone, toNat_groupsUnderNeg, height, doubledMinuses]
    omega
  | binary op l r ihl ihr =>
    have hsome : (binary op l r).groupsOnRight.toNat = 1 := rfl
    rw [hsome, height, doubledMinuses]
    obtain h | h := List.mem_append.mp h
    · obtain ⟨d, hd, rfl⟩ := exists_of_mem_grouped h
      have hinner := ihl hd
      have hgrouped := toNat_groupsOnLeft_le op l
      omega
    · obtain ⟨d, hd, rfl⟩ := exists_of_mem_grouped h
      have hinner := ihr hd
      omega

/-- The bound can be reached. -/
example :
    let e := neg^[128] (name (Bytes.utf8 "x"))
    e.enclosures = [255] ∧ e.height + e.doubledMinuses = 256 := by
  decide +kernel

/-! ## Formatting again -/

/-- The canonical form of an expression that is not too high is read if nothing in it is nested too
deeply. -/
theorem parse_print_iff {e : Expr} (he : e.Arithmetic) (hbounded : e.Bounded) :
    parse e.print = .ok e ↔ ∀ d ∈ e.enclosures, d ≤ 255 := by
  have hlexes := lexes_spelling he
  rw [parse_iff_reads]
  constructor
  · rintro ⟨ls, ds, hlexes', hreads, hds, -⟩
    obtain rfl : ls = e.spelling := by
      rw [← (Scan.complete_iff.mpr hlexes').1, ← (Scan.complete_iff.mpr hlexes).1]
    rwa [hreads.encloses.unique (encloses_spelling e)] at hds
  · exact fun hds =>
      ⟨e.spelling, e.enclosures, hlexes, reads_spelling he, hds, bounded_iff.mp hbounded⟩

theorem format_print_eq_iff {e : Expr} (he : e.Arithmetic) (hbounded : e.Bounded) :
    format e.print = .ok e.print ↔ ∀ d ∈ e.enclosures, d ≤ 255 := by
  rw [← parse_print_iff he hbounded, format]
  constructor
  · intro h
    obtain ⟨e', hparse, -⟩ := Except.map_eq_ok_iff.mp h
    rwa [eq_of_parse_print he hparse] at hparse
  · intro h
    rw [h]
    rfl

/-- **What has been formatted stays as it is, unless its parentheses go too deep**: it can be
formatted again exactly if the grammar finds at most 255 minuses and parentheses around each number
and name, and otherwise it is refused for being nested too deeply.  It can be if its height and the
number of minuses that come right behind another make no more than 256. -/
theorem reformat_iff {src out : Bytes} (h : format src = .ok out) :
    ∃ e, parse src = .ok e ∧ out = e.print ∧ Reads .sum e.spelling e e.enclosures ∧
      (format out = .ok out ↔ ∀ d ∈ e.enclosures, d ≤ 255) ∧
      (format out = .ok out ∨ ∃ err, format out = .error err ∧
        err.fault.message = Bytes.utf8 "expression nested too deeply") ∧
      (e.height + e.doubledMinuses ≤ 256 → format out = .ok out) := by
  rw [format] at h
  cases hparse : parse src with
  | error err =>
    rw [hparse] at h
    cases h
  | ok e =>
    rw [hparse] at h
    obtain rfl := Except.ok.inj h
    have he := arithmetic_of_parse hparse
    obtain ⟨ls, -, -, hbounded⟩ := parse_iff_derives.mp hparse
    have hiff := format_print_eq_iff he hbounded
    refine ⟨e, rfl, rfl, reads_spelling he, hiff, ?_, fun hheight => hiff.mpr fun d hd => ?_⟩
    · obtain h | ⟨pos, h⟩ :=
        (orTooDeep_of_lexes (lexes_spelling he) (derives_spelling he).goal_sum).map print
      · exact .inl h
      · exact .inr ⟨_, h, rfl⟩
    · have := enclosures_bound hd
      omega

/-- The parentheses around the product and around the second minus are new. -/
theorem reformat_iff_regrouped :
    format (Bytes.utf8 "--a*b+c") = .ok (Bytes.utf8 "(-(-a) * b) + c") ∧
    format (Bytes.utf8 "(-(-a) * b) + c") = .ok (Bytes.utf8 "(-(-a) * b) + c") := by
  have hformat : format (Bytes.utf8 "--a*b+c") = .ok (Bytes.utf8 "(-(-a) * b) + c") := by
    decide +kernel
  have hheight : (parse (Bytes.utf8 "--a*b+c")).map (fun e => e.height + e.doubledMinuses)
      = .ok 6 := by
    decide +kernel
  obtain ⟨e, hparse, -, -, -, -, hstays⟩ := reformat_iff hformat
  rw [hparse] at hheight
  have hsix : e.height + e.doubledMinuses = 6 := Except.ok.inj hheight
  exact ⟨hformat, hstays (hsix.trans_le (by decide))⟩

/-- So many minuses can be read, but each of them except for the last is printed with parentheses,
and together they go too deep. -/
theorem reformat_minuses :
    format (List.replicate 129 '-'.toUInt8 ++ Bytes.utf8 "x")
      = .ok (neg^[129] (name (Bytes.utf8 "x"))).print ∧
    format (neg^[129] (name (Bytes.utf8 "x"))).print = .error ⟨256, .tooDeep⟩ := by
  decide +kernel

end Expr

end LayoutMarkup

import LayoutMarkup.Proofs.Respacing
import LayoutMarkup.Proofs.Runs

/-!
# Proofs/Settling — canonical values stay as they are

A value in canonical form has no other canonical form (`IsCanonical.settled`), so canonical forms
are reached in one step (`value_value`).  Moving the lines of such a value leaves it in canonical
form (`IsCanonical.shift`): an expression is a single line, and the lines of a call are those of its
arguments.  A value that is not read as anything stays as it is; when its lines are moved, it is
still not read as anything, unless a form feed has vanished from one of its blank lines
(`settled_of_carried`).
-/

namespace LayoutMarkup

namespace Bytes

/-! ## Texts without white space at their ends -/

/-- There is something in the text, and no white space at its ends. -/
structure Trimmed (s : Bytes) : Prop where
  ne_nil : s ≠ []
  trim : s.trimSpace = s

/-- The text begins with a glyph other than white space. -/
def Opens (s : Bytes) : Prop := ∃ g ∈ s.glyphs.head?, g.is isSpace = false

/-- The text ends with a glyph other than white space. -/
def Shuts (s : Bytes) : Prop := ∃ g ∈ s.glyphs.getLast?, g.is isSpace = false

variable {b : UInt8} {s t : Bytes}

/-- A text that neither begins nor ends with white space is trimmed. -/
theorem trimmed_of_opens_of_shuts (hopens : Opens s) (hshuts : Shuts s) : Trimmed s := by
  obtain ⟨g, hg, hspace⟩ := hopens
  obtain ⟨g', hg', hspace'⟩ := hshuts
  refine ⟨?_, trimSpace_eq_self_iff.mpr ⟨fun x hx => ?_, fun x hx => ?_⟩⟩
  · rintro rfl
    rw [glyphs_nil] at hg
    contradiction
  · rwa [Option.mem_unique hx hg]
  · rwa [Option.mem_unique hx hg']

/-- A text begins with its first character. -/
theorem opens_cons (hb : b < 0x80) (hspace : (ascii b).is isSpace = false) (s : Bytes) :
    Opens (b :: s) := by
  refine ⟨ascii b, ?_, hspace⟩
  rw [glyphs_cons hb]
  rfl

/-- How a text begins does not depend on what follows behind an ASCII character. -/
theorem Opens.append_cons (h : Opens s) (hb : b < 0x80) (t : Bytes) : Opens (s ++ b :: t) := by
  obtain ⟨g, hg, hspace⟩ := h
  refine ⟨g, ?_, hspace⟩
  rw [glyphs_append_cons hb, List.head?_append, hg]
  rfl

/-- A text ends with its last character. -/
theorem shuts_concat (hb : b < 0x80) (hspace : (ascii b).is isSpace = false) (s : Bytes) :
    Shuts (s ++ [b]) := by
  refine ⟨ascii b, ?_, hspace⟩
  rw [glyphs_append_cons hb, glyphs_nil, List.getLast?_concat]
  rfl

/-- How a text ends does not depend on what stands before an ASCII character. -/
theorem Shuts.append_cons (h : Shuts t) (hb : b < 0x80) (s : Bytes) : Shuts (s ++ b :: t) := by
  obtain ⟨g, hg, hspace⟩ := h
  refine ⟨g, ?_, hspace⟩
  rw [glyphs_append_cons hb, List.getLast?_append, List.getLast?_cons, hg]
  rfl

theorem isSpace_ascii (hb : isBlank b = true) : (ascii b).is isSpace = true :=
  IsSpacer.isSpace (p := fun b => isBlank b = true) (fun _ h => h) ⟨b, hb, rfl⟩

/-- A trimmed text does not begin with a blank. -/
theorem Trimmed.begins (h : Trimmed s) : Canonical.Begins s := by
  obtain ⟨b, t, rfl⟩ := List.exists_cons_of_ne_nil h.ne_nil
  refine ⟨b, rfl, ?_⟩
  by_contra hblank
  rw [Bool.not_eq_false] at hblank
  have hhead := (trimSpace_eq_self_iff.mp h.trim).1 (ascii b)
  rw [glyphs_cons (lt_of_isBlank hblank), isSpace_ascii hblank] at hhead
  exact Bool.noConfusion (hhead rfl)

/-- A trimmed text does not end with a blank. -/
theorem Trimmed.ends (h : Trimmed s) : Canonical.Ends s := by
  obtain ⟨t, b, rfl⟩ := (List.eq_nil_or_concat' s).resolve_left h.ne_nil
  refine ⟨b, List.getLast?_concat, ?_⟩
  by_contra hblank
  rw [Bool.not_eq_false] at hblank
  have hlast := (trimSpace_eq_self_iff.mp h.trim).2 (ascii b)
  rw [glyphs_append_cons (lt_of_isBlank hblank), glyphs_nil, List.getLast?_concat,
    isSpace_ascii hblank] at hlast
  exact Bool.noConfusion (hlast rfl)

/-- Respacing a text does not reach its ends. -/
theorem Trimmed.respaced (hs : Trimmed s) (h : Respaced (fun b => isBlank b = true) s t) :
    Trimmed t where
  ne_nil hnil := hs.ne_nil (h.eq_nil_iff.mpr hnil)
  trim := h.trimSpace_eq_self (fun _ hb => hb) hs.trim

theorem trimSpace_cons (hb : isBlank b = true) (s : Bytes) :
    trimSpace (b :: s) = trimSpace s := by
  rw [trimSpace_eq, trimSpace_eq, glyphs_cons (lt_of_isBlank hb), core, core,
    List.dropWhile_cons_of_pos (isSpace_ascii hb)]

/-! ## The canonical form of an expression -/

/-- White space is no part of an identifier. -/
theorem isIdentifierPart_of_isSpace {c : Char} (h : isSpace c = true) :
    isIdentifierPart c = false :=
  (by decide +kernel : ∀ c ∈ Formula.spaceChars, isIdentifierPart c = false) c
    (Formula.mem_spaceChars h)

/-- An identifier is not empty and has no white space in it. -/
theorem IsIdentifier.glyphs {name : Bytes} (h : name.IsIdentifier) :
    name.glyphs ≠ [] ∧ ∀ g ∈ name.glyphs, g.is isSpace = false := by
  obtain ⟨c, cs, rfl, hc, hcs⟩ := h
  have hglyphs := glyphs_ofChars_append (c :: cs) []
  rw [List.append_nil, glyphs_nil, List.append_nil] at hglyphs
  rw [hglyphs]
  refine ⟨List.cons_ne_nil _ _, fun g hg => ?_⟩
  obtain ⟨d, hd, rfl⟩ := List.mem_map.mp hg
  have hpart : isIdentifierPart d = true := by
    rcases List.mem_cons.mp hd with rfl | hd
    · exact isIdentifierPart_of_isIdentifierStart d hc
    · exact hcs d hd
  by_contra hspace
  rw [Bool.not_eq_false] at hspace
  rw [isIdentifierPart_of_isSpace hspace] at hpart
  contradiction

theorem IsIdentifier.opens {name : Bytes} (h : name.IsIdentifier) : Opens name := by
  obtain ⟨hne, hspace⟩ := h.glyphs
  exact ⟨_, List.head?_eq_some_head hne, hspace _ (List.head_mem hne)⟩

theorem IsIdentifier.shuts {name : Bytes} (h : name.IsIdentifier) : Shuts name := by
  obtain ⟨hne, hspace⟩ := h.glyphs
  exact ⟨_, List.getLast?_eq_some_getLast hne, hspace _ (List.getLast_mem hne)⟩

theorem opens_parenthesized (s : Bytes) : Opens s.parenthesized :=
  opens_cons (by decide) (by decide) _

theorem shuts_parenthesized (s : Bytes) : Shuts s.parenthesized :=
  shuts_concat (by decide) (by decide) _

end Bytes

namespace Expr

/-- No white space stands before a number. -/
theorem opens_number {text : Bytes} (h : (Lexeme.number text).Stands []) : text.Opens := by
  obtain ⟨b, t, rfl⟩ := List.exists_cons_of_ne_nil h.text_ne_nil
  have hb := h.mem_numberBytes b List.mem_cons_self
  exact Bytes.opens_cons ((by decide : ∀ b ∈ Lexeme.numberBytes, b < 0x80) b hb)
    ((by decide : ∀ b ∈ Lexeme.numberBytes, (Bytes.ascii b).is isSpace = false) b hb) t

/-- No white space stands behind a number. -/
theorem shuts_number {text : Bytes} (h : (Lexeme.number text).Stands []) : text.Shuts := by
  have hne : text ≠ [] := h.text_ne_nil
  have hb := h.mem_numberBytes _ (List.getLast_mem hne)
  rw [← List.dropLast_append_getLast hne]
  exact Bytes.shuts_concat ((by decide : ∀ b ∈ Lexeme.numberBytes, b < 0x80) _ hb)
    ((by decide : ∀ b ∈ Lexeme.numberBytes, (Bytes.ascii b).is isSpace = false) _ hb) _

/-- **No white space stands around a canonical form.** -/
theorem opens_and_shuts_print {e : Expr} (he : e.Arithmetic) : e.print.Opens ∧ e.print.Shuts := by
  induction e with
  | number text => exact ⟨opens_number he, shuts_number he⟩
  | name text =>
    obtain _ | _ | ⟨hname⟩ := he
    exact ⟨hname.opens, hname.shuts⟩
  | call c => contradiction
  | neg e ih =>
    have hshuts : (if e.groupsUnderNeg then e.print.parenthesized else e.print).Shuts := by
      split
      · exact Bytes.shuts_parenthesized _
      · exact (ih he).2
    exact ⟨Bytes.opens_cons (by decide) (by decide) _, hshuts.append_cons (by decide) []⟩
  | binary op l r ihl ihr =>
    obtain ⟨-, hl, hr⟩ := he
    have hopens : (if l.groupsOnLeft op then l.print.parenthesized else l.print).Opens := by
      split
      · exact Bytes.opens_parenthesized _
      · exact (ihl hl).1
    have hshuts : (if r.groupsOnRight then r.print.parenthesized else r.print).Shuts := by
      split
      · exact Bytes.shuts_parenthesized _
      · exact (ihr hr).2
    rw [print]
    constructor
    · rw [List.append_assoc, List.append_assoc, List.append_assoc]
      exact hopens.append_cons (by decide) _
    · rw [List.append_assoc]
      exact hshuts.append_cons (by decide) _

end Expr

/-! ## The canonical form of a call -/

namespace Call

/-- The call can be written, and its arguments are trimmed. -/
structure Sound (c : Call) : Prop where
  name : c.name.IsIdentifier
  ne_nil : c.args ≠ []
  trimmed : ∀ a ∈ c.args, a.Trimmed
  closed : ∀ a ∈ c.args, Closed a

/-- The depth is not changed by what neither opens nor closes anything at the end. -/
theorem depth?_append_idle {w : Bytes} (hw : ∀ b ∈ w, Idle b) (s : Bytes) :
    ∀ depth, depth? depth (s ++ w) = depth? depth s := by
  induction s with
  | nil =>
    intro depth
    have h := depth?_idle hw depth []
    rwa [List.append_nil] at h
  | cons b s ih =>
    intro depth
    rw [List.cons_append, depth?, depth?, ih]

/-- White space neither opens, closes nor separates anything. -/
theorem idle_of_isSpace {gs : List Glyph} (h : ∀ g ∈ gs, g.is isSpace = true) :
    ∀ b ∈ gs.flatMap Glyph.bytes, Idle b := by
  intro b hb
  obtain ⟨g, hg, hbg⟩ := List.mem_flatMap.mp hb
  have hspace := h g hg
  have hmark {x : UInt8} (hx : x < 0x80) (hx' : isSpace (Char.ofNat x.toNat) = false) : b ≠ x := by
    rintro rfl
    rcases g with c | y
    · rw [Bytes.eq_ofNat_of_mem_encode hbg hx] at hspace
      exact absurd (hspace.symm.trans hx') (by decide)
    · contradiction
  exact ⟨hmark (by decide) (by decide), hmark (by decide) (by decide),
    hmark (by decide) (by decide)⟩

/-- White space around an argument does not open or close anything. -/
theorem Closed.trimSpace {s : Bytes} (h : Closed s) : Closed s.trimSpace := by
  obtain ⟨xs, ys, hs, hxs, hys⟩ := Bytes.exists_of_trimSpace s
  rw [Closed, hs, depth?_idle (idle_of_isSpace hxs), depth?_append_idle (idle_of_isSpace hys)] at h
  exact h

/-- A call that was read is sound. -/
theorem sound_of_parse {src : Bytes} {c : Call} (h : parse src = .ok c) : c.Sound := by
  obtain ⟨raws, hwritten, hraws, hargs⟩ := written_of_parse h
  obtain @⟨-, -, -, -, hname, -, hne, hclosed, -⟩ := hwritten
  have hmem : ∀ a ∈ c.args, ∃ r ∈ raws, r.trimSpace = a := fun a ha => by
    rw [hargs] at ha
    exact List.mem_map.mp ha
  refine ⟨hname, by rwa [hargs, Ne, List.map_eq_nil_iff], fun a ha => ?_, fun a ha => ?_⟩
  · obtain ⟨r, hr, rfl⟩ := hmem a ha
    exact ⟨hraws r hr, Bytes.trimSpace_trimSpace r⟩
  · obtain ⟨r, hr, rfl⟩ := hmem a ha
    exact (hclosed r hr).trimSpace

/-- The arguments of a canonical form, with the spaces before them. -/
def spaced : List Bytes → List Bytes
  | [] => []
  | arg :: args => arg :: args.map (' '.toUInt8 :: ·)

/-- The space behind a comma can be seen as one before the next argument. -/
theorem intercalate_spaced (args : List Bytes) :
    [comma].intercalate (spaced args) = (Bytes.utf8 ", ").intercalate args := by
  rcases args with _ | ⟨arg, args⟩
  · rfl
  rw [spaced]
  induction args generalizing arg with
  | nil => rfl
  | cons arg' args ih =>
    have ih' := ih arg'
    rw [List.map_cons, List.intercalate_cons_cons, intercalate_cons, ih',
      List.intercalate_cons_cons]
    simp only [List.append_assoc, List.singleton_append]
    rfl

/-- The spaces before the arguments are trimmed off again. -/
theorem trimSpace_spaced {args : List Bytes} (h : ∀ a ∈ args, a.Trimmed) :
    (spaced args).map Bytes.trimSpace = args := by
  rcases args with _ | ⟨arg, args⟩
  · rfl
  obtain ⟨harg, hargs⟩ := List.forall_mem_cons.mp h
  rw [spaced, List.map_cons, harg.trim, List.map_map]
  congr 1
  conv_rhs => rw [← List.map_id args]
  refine List.map_congr_left fun a ha => ?_
  rw [Function.comp_apply, Bytes.trimSpace_cons (by decide), (hargs a ha).trim, id]

/-- The arguments are closed with the spaces before them. -/
theorem closed_spaced {args : List Bytes} (h : ∀ a ∈ args, Closed a) :
    ∀ r ∈ spaced args, Closed r := by
  rcases args with _ | ⟨arg, args⟩
  · exact h
  obtain ⟨harg, hargs⟩ := List.forall_mem_cons.mp h
  refine List.forall_mem_cons.mpr ⟨harg, fun r hr => ?_⟩
  obtain ⟨a, ha, rfl⟩ := List.mem_map.mp hr
  have hidle : ∀ b ∈ [' '.toUInt8], Idle b :=
    List.forall_mem_singleton.mpr (idle_of_isBlank (by decide))
  exact (depth?_idle hidle 0 a).trans (hargs a ha)

/-- **The canonical form of a call is read as this call.** -/
theorem Sound.parse_canonical {c : Call} (h : c.Sound) : parse c.print = .ok c := by
  obtain ⟨name, args⟩ := c
  have hgap : ∀ b ∈ ([] : Bytes), Scan.isGap b = true := fun _ hb => nomatch hb
  have hne : spaced args ≠ [] := by
    obtain ⟨a, as, rfl⟩ := List.exists_cons_of_ne_nil h.ne_nil
    exact List.cons_ne_nil _ _
  have hwritten := Written.intro hgap h.name hgap hne (closed_spaced h.closed) hgap
  have htext : [] ++ (name ++ ([] ++ (arguments (spaced args) ++ [])))
      = (Call.mk name args).print := by
    rw [print, Bytes.parenthesized, arguments, intercalate_spaced]
    simp only [List.nil_append, List.append_nil]
    rfl
  rw [htext] at hwritten
  have hraws : ∀ r ∈ spaced args, r.trimSpace ≠ [] := by
    intro r hr hnil
    have hmem := List.mem_map_of_mem (f := Bytes.trimSpace) hr
    rw [trimSpace_spaced h.trimmed] at hmem
    exact (h.trimmed _ hmem).ne_nil hnil
  rw [parse_of_written hwritten hraws, trimSpace_spaced h.trimmed]

/-- A call begins with its name. -/
theorem opens_print {c : Call} (h : c.Sound) : c.print.Opens :=
  h.name.opens.append_cons (by decide) _

/-- A call ends with its parenthesis. -/
theorem shuts_print (c : Call) : c.print.Shuts := by
  rw [print, Bytes.parenthesized, ← List.append_assoc]
  exact Bytes.shuts_concat (by decide) (by decide) _

/-! ## Moving the lines of a call -/

open Canonical

variable {pad : Bytes} {k : Nat}

/-- To move the lines of the arguments is to move those of each one. -/
theorem moved_args {args : List Bytes} (h : ∀ a ∈ args, a.Trimmed) :
    Moved pad k ((Bytes.utf8 ", ").intercalate args) (∀ a ∈ args, Deep k a)
      ((Bytes.utf8 ", ").intercalate (args.map (shift pad k))) := by
  induction args with
  | nil => exact (Moved.line (by decide)).congr (by simp)
  | cons arg args ih =>
    obtain ⟨harg, hargs⟩ := List.forall_mem_cons.mp h
    rcases args with _ | ⟨arg', args⟩
    · rw [List.map_singleton, List.intercalate_singleton, List.intercalate_singleton]
      exact Moved.self.congr (by simp)
    · have hbegins : Begins ((Bytes.utf8 ", ").intercalate (arg' :: args)) := by
        have harg' := (hargs arg' List.mem_cons_self).begins
        rcases args with _ | ⟨arg'', args⟩
        · rwa [List.intercalate_singleton]
        · rw [List.intercalate_cons_cons]
          exact begins_append (begins_append harg' _) _
      have hcomma : Moved pad k (Bytes.utf8 ", ") True (Bytes.utf8 ", ") := .line (by decide)
      have hfirst := Moved.self.append hcomma (.inl harg.ends)
      have hall := hfirst.append (ih hargs) (.inr hbegins)
      rw [List.map_cons, List.map_cons, List.intercalate_cons_cons, List.intercalate_cons_cons]
      exact hall.congr (by simp)

/-- **A call is moved argument by argument.** -/
theorem Sound.moved {c : Call} (h : c.Sound) :
    Moved pad k c.print (∀ a ∈ c.args, Deep k a)
      (Call.mk c.name (c.args.map (shift pad k))).print := by
  have hname : Moved pad k c.name True c.name := .line fun hmem =>
    absurd (not_gap_of_isIdentifier h.name _ hmem) (by decide)
  have hopen : Moved pad k (Bytes.utf8 "(") True (Bytes.utf8 "(") := .line (by decide)
  have hclose : Moved pad k (Bytes.utf8 ")") True (Bytes.utf8 ")") := .line (by decide)
  have hbegins : Begins (Bytes.utf8 "(") := ⟨'('.toUInt8, rfl, by decide⟩
  have hinner := (hopen.append (moved_args h.trimmed) (.inl ⟨'('.toUInt8, rfl, by decide⟩)).append
    hclose (.inr ⟨')'.toUInt8, rfl, by decide⟩)
  have hall := hname.append hinner (.inr (begins_append (begins_append hbegins _) _))
  exact hall.congr (by simp)

/-- A sound call stays sound when its lines are moved. -/
theorem Sound.shift (hpad : ∀ b ∈ pad, isIndent b = true) {c : Call} (h : c.Sound)
    (hdeep : ∀ a ∈ c.args, Deep k a) : (Call.mk c.name (c.args.map (shift pad k))).Sound := by
  have hrespaced : ∀ a ∈ c.args,
      Respaced (fun b => Bytes.isBlank b = true) a (Canonical.shift pad k a) := fun a ha =>
    respaced_isBlank_shift hpad (hdeep a ha)
  refine ⟨h.name, by simpa using h.ne_nil, fun a' ha' => ?_, fun a' ha' => ?_⟩
  · obtain ⟨a, ha, rfl⟩ := List.mem_map.mp ha'
    exact (h.trimmed a ha).respaced (hrespaced a ha)
  · obtain ⟨a, ha, rfl⟩ := List.mem_map.mp ha'
    exact (depth?_respaced (hrespaced a ha) 0).symm.trans (h.closed a ha)

end Call

/-! ## Canonical values -/

namespace Canonical

/-- What an attribute holds, in canonical form. -/
inductive Printed (key : Bytes) : Bytes → Prop
  | colour {c : Call} (hkey : isColour key = true) (hc : c.Sound) : Printed key c.print
  | expr {e : Expr} (hkey : isColour key = false) (he : e.Arithmetic) : Printed key e.print

/-- The value of an attribute in canonical form, with or without braces. -/
inductive IsCanonical (key : Bytes) : Bytes → Prop
  | plain {s : Bytes} (h : Printed key s) : IsCanonical key s
  | braced {s : Bytes} (h : Printed key s) :
      IsCanonical key (Bytes.utf8 "\x7b" ++ s ++ Bytes.utf8 "\x7d")

variable {v : Vocabulary} {key src s : Bytes} {pad : Bytes} {k : Nat}

/-- A canonical form has been printed from something that was read. -/
theorem printed_of_canonical? (h : canonical? key src = some s) : Printed key s := by
  rw [canonical?] at h
  split at h
  · next hkey =>
    obtain ⟨c, hc, rfl⟩ := canonicalColour?_eq_some h
    exact .colour hkey (Call.sound_of_parse hc)
  · next hkey =>
    obtain ⟨e, -, he, rfl⟩ := canonicalExpr?_eq_some h
    exact .expr (by simpa using hkey) he

/-- What a value is replaced by is a canonical form, in braces if the value was. -/
theorem isCanonical_of_reading? (h : reading? v key src = some s) : IsCanonical key s := by
  rw [reading?] at h
  split at h
  · obtain ⟨out, hout, rfl⟩ := Option.map_eq_some_iff.mp h
    exact .braced (printed_of_canonical? hout)
  · split at h
    · exact .plain (printed_of_canonical? h)
    · contradiction

/-- It has no other canonical form; it need not have any, since it may be nested too deeply. -/
theorem Printed.canonical? (h : Printed key s) {out : Bytes} (hout : canonical? key s = some out) :
    out = s := by
  rcases h with ⟨hkey, hc⟩ | ⟨hkey, he⟩
  · rw [Canonical.canonical?, if_pos hkey] at hout
    obtain ⟨c', hc', rfl⟩ := canonicalColour?_eq_some hout
    rw [hc.parse_canonical] at hc'
    rw [Except.ok.inj hc']
  · rw [Canonical.canonical?, if_neg (by rw [hkey]; exact Bool.false_ne_true)] at hout
    obtain ⟨e', he', -, rfl⟩ := canonicalExpr?_eq_some hout
    rw [Expr.eq_of_parse_print he he']

/-- What is printed has no white space at its ends. -/
theorem Printed.trimmed (h : Printed key s) : s.Trimmed := by
  rcases h with ⟨-, hc⟩ | ⟨-, he⟩
  · exact Bytes.trimmed_of_opens_of_shuts (Call.opens_print hc) (Call.shuts_print _)
  · obtain ⟨hopens, hshuts⟩ := Expr.opens_and_shuts_print he
    exact Bytes.trimmed_of_opens_of_shuts hopens hshuts

/-- What is printed is not in braces. -/
theorem Printed.bracedBody? (h : Printed key s) : bracedBody? s = none := by
  have hopen : '\x7b'.toUInt8 ∉ s.head? := by
    rcases h with ⟨-, hc⟩ | ⟨-, he⟩
    · obtain ⟨b, t, hbt⟩ := List.exists_cons_of_ne_nil (Bytes.IsWord.ne_nil hc.name)
      rw [Call.print, hbt]
      intro hmem
      obtain rfl : b = _ := Option.some.inj hmem
      exact absurd (hc.name.part_of_mem (hbt ▸ List.mem_cons_self) (by decide)) (by decide)
    · exact fun hmem => Expr.not_mem_print he (by decide) (by decide) (by decide)
        (List.mem_of_mem_head? hmem)
  rcases hbody : Canonical.bracedBody? s with _ | body
  · rfl
  · rw [eq_of_bracedBody? hbody] at hopen
    exact absurd rfl hopen

theorem trimmed_braced (s : Bytes) :
    (Bytes.utf8 "\x7b" ++ s ++ Bytes.utf8 "\x7d").Trimmed :=
  Bytes.trimmed_of_opens_of_shuts (Bytes.opens_cons (b := '\x7b'.toUInt8) (by decide) (by decide) _)
    (Bytes.shuts_concat (b := '\x7d'.toUInt8) (by decide) (by decide) _)

/-- **A canonical value has no other canonical form.** -/
theorem IsCanonical.settled (h : IsCanonical key s) : Settled v ⟨key, s⟩ := by
  have hread : ∀ out, reading? v key s = some out → out = s := by
    intro out hout
    rw [reading?] at hout
    rcases h with h | @⟨c, h⟩
    · rw [h.trimmed.trim, h.bracedBody?] at hout
      simp only at hout
      split at hout
      · exact h.canonical? hout
      · contradiction
    · rw [(trimmed_braced c).trim, bracedBody?_braced] at hout
      obtain ⟨c', hc', rfl⟩ := Option.map_eq_some_iff.mp hout
      rw [h.trimmed.trim] at hc'
      rw [h.canonical? hc']
  rw [Settled, value_eq]
  rcases hr : reading? v key s with _ | out
  · rfl
  · exact hread out hr

/-- **A canonical value is settled.** -/
theorem settled_value (v : Vocabulary) (a : Attribute) : Settled v ⟨a.key, value v a⟩ := by
  rw [value_eq]
  rcases hread : reading? v a.key a.value with _ | out
  · rw [Option.getD_none, Settled, value_eq, hread]
    rfl
  · exact (isCanonical_of_reading? hread).settled

/-- **The canonical form of a value is its own canonical form, and can stand between quotes if the
value can.**  That holds of a form that cannot be read again, too: it is kept as it is. -/
theorem value_value (v : Vocabulary) (key s : Bytes) :
    value v ⟨key, value v ⟨key, s⟩⟩ = value v ⟨key, s⟩ ∧
      ('"'.toUInt8 ∉ s → '"'.toUInt8 ∉ value v ⟨key, s⟩) :=
  ⟨settled_value v ⟨key, s⟩, fun h => quote_not_mem_value h⟩

/-- White space of Unicode stands inside and outside of the braces. -/
theorem value_value_braced :
    '"'.toUInt8 ∉ Bytes.utf8 "\u00a0\x7b a+b*c\u2003\x7d " ∧
      value .standard ⟨Bytes.utf8 "title", Bytes.utf8 "\u00a0\x7b a+b*c\u2003\x7d "⟩
        = Bytes.utf8 "\x7ba + (b * c)\x7d" ∧
      value .standard ⟨Bytes.utf8 "title", Bytes.utf8 "\x7ba + (b * c)\x7d"⟩
        = Bytes.utf8 "\x7ba + (b * c)\x7d" ∧
      '"'.toUInt8 ∉ Bytes.utf8 "\x7ba + (b * c)\x7d" := by
  have hvalue : value .standard
      ⟨Bytes.utf8 "title", Bytes.utf8 "\u00a0\x7b a+b*c\u2003\x7d "⟩
        = Bytes.utf8 "\x7ba + (b * c)\x7d" := by
    decide +kernel
  obtain ⟨hvalue', hquote⟩ := value_value .standard (Bytes.utf8 "title")
    (Bytes.utf8 "\u00a0\x7b a+b*c\u2003\x7d ")
  rw [hvalue] at hvalue' hquote
  exact ⟨by decide, hvalue, hvalue', hquote (by decide)⟩

/-- A printed form stays one when its lines are moved. -/
theorem Printed.shift (hpad : ∀ b ∈ pad, isIndent b = true) (h : Printed key s)
    (hdeep : Deep k s) : Printed key (shift pad k s) := by
  rcases h with ⟨hkey, hc⟩ | ⟨hkey, he⟩
  · have hmoved : Moved pad k _ _ _ := hc.moved
    have hargs := hmoved.deep.mp hdeep
    rw [hmoved.out hargs]
    exact .colour hkey (hc.shift hpad hargs)
  · rw [shift_line (Expr.not_mem_print he (by decide) (by decide) (by decide))]
    exact .expr hkey he

/-- **A canonical value stays canonical when its lines are moved.** -/
theorem IsCanonical.shift (hpad : ∀ b ∈ pad, isIndent b = true) (h : IsCanonical key s)
    (hdeep : Deep k s) : IsCanonical key (shift pad k s) := by
  rcases h with h | @⟨c, h⟩
  · exact .plain (h.shift hpad hdeep)
  · have hopen : Moved pad k (Bytes.utf8 "\x7b") True (Bytes.utf8 "\x7b") := .line (by decide)
    have hclose : Moved pad k (Bytes.utf8 "\x7d") True (Bytes.utf8 "\x7d") := .line (by decide)
    have hinner : Moved pad k c (Deep k c) (Canonical.shift pad k c) := .self
    have hall := (hopen.append hinner (.inl ⟨'\x7b'.toUInt8, rfl, by decide⟩)).append hclose
      (.inr ⟨'\x7d'.toUInt8, rfl, by decide⟩)
    have hparts := hall.deep.mp hdeep
    rw [hall.out hparts]
    exact .braced (h.shift hpad hparts.1.2)

/-! ## Values that have been carried over -/

/-- The form feed, a blank of markup that is no gap in an expression. -/
abbrev formFeed : UInt8 := 0x0C

/-- No blank line of the text holds a form feed. -/
def Clear (s : Bytes) : Prop := ∀ l ∈ s.lines, isBlankLine l = true → formFeed ∉ l

instance (s : Bytes) : Decidable (Clear s) :=
  inferInstanceAs (Decidable (∀ l ∈ s.lines, isBlankLine l = true → formFeed ∉ l))

theorem isGap_of_isBlank {b : UInt8} (h : Bytes.isBlank b = true) (hne : b ≠ formFeed) :
    Scan.isGap b = true := by
  simp only [Bytes.isBlank, Bool.or_eq_true, beq_iff_eq] at h
  rcases h with (((rfl | rfl) | rfl) | rfl) | rfl
  all_goals first | decide | exact absurd rfl hne

/-- Moving the lines of a value only changes its gaps, if no form feed is lost. -/
theorem regapped_shift (hpad : ∀ b ∈ pad, isIndent b = true) (hclear : Clear s) (hdeep : Deep k s) :
    Regapped s (shift pad k s) := by
  refine respaced_shift (by decide) (fun b hb => ?_) hpad (fun l hl hblank b hb => ?_) hdeep
  · refine isGap_of_isBlank (isBlank_of_isIndent hb) ?_
    rintro rfl
    exact absurd hb (by decide)
  · refine isGap_of_isBlank (List.all_eq_true.mp hblank b hb) ?_
    rintro rfl
    exact hclear l hl hblank hb

/-- **A value that has been carried over is settled**, unless a form feed stood on a blank line of
it. -/
theorem settled_of_carried {a a' : Attribute} (h : Carried v a a') (hclear : Clear a.value) :
    Settled v a' := by
  obtain ⟨key, value'⟩ := a'
  obtain ⟨rfl, hvalue⟩ := h
  rw [value_eq] at hvalue
  rcases hread : reading? v a.key a.value with _ | out
  · rw [hread, Option.getD_none] at hvalue
    have hregapped : Regapped value' a.value := by
      rcases hvalue with rfl | ⟨pad, k, hpad, hdeep, rfl⟩
      · exact .refl _ _
      · exact (regapped_shift hpad hclear hdeep).symm
    rw [Settled, value_eq]
    rcases hread' : reading? v a.key value' with _ | out'
    · rfl
    · obtain ⟨out, hout⟩ := reading?_regapped hregapped hread'
      rw [hread] at hout
      contradiction
  · have hcanonical := isCanonical_of_reading? hread
    rw [hread, Option.getD_some] at hvalue
    rcases hvalue with rfl | ⟨pad, k, hpad, hdeep, rfl⟩
    · exact hcanonical.settled
    · exact (hcanonical.shift hpad hdeep).settled

/-- An attribute that comes out as it is has a settled value. -/
theorem settled_of_carried_self {a : Attribute} (h : Carried v a a) : Settled v a := by
  obtain ⟨key, val⟩ := a
  obtain ⟨-, hvalue | ⟨pad, k, hpad, hdeep, hvalue⟩⟩ := h
  · exact hvalue.symm
  · rcases hread : reading? v key val with _ | out
    · rw [Settled, value_eq, hread]
      rfl
    · rw [value_eq, hread, Option.getD_some] at hvalue hdeep
      rw [show val = _ from hvalue]
      exact ((isCanonical_of_reading? hread).shift hpad hdeep).settled

end Canonical

end LayoutMarkup

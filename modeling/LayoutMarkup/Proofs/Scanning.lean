import LayoutMarkup.Markup.Token
import LayoutMarkup.Proofs.Glyphs
import Mathlib.Data.List.TakeWhile

/-!
# Proofs/Scanning — what a step of the scanner reads

`Token.Reads` lists what can stand at the cursor in each mode, and which token it is; a step emits a
token exactly if the text ahead begins with one of these forms (`step_eq_emit_iff`).  Two of them
look ahead: text goes on up to the next `<`, and a name as far as it can.
-/

namespace LayoutMarkup

/-! ## Blanks -/

theorem Bytes.lt_of_isBlank {b : UInt8} (h : Bytes.isBlank b = true) : b < 0x80 := by
  simp only [Bytes.isBlank, Bool.or_eq_true, beq_iff_eq] at h
  rcases h with (((rfl | rfl) | rfl) | rfl) | rfl <;> decide

/-- A blank ends a name. -/
theorem isNamePart_of_isBlank {b : UInt8} (h : Bytes.isBlank b = true) :
    isNamePart (Char.ofNat b.toNat) = false := by
  simp only [Bytes.isBlank, Bool.or_eq_true, beq_iff_eq] at h
  rcases h with (((rfl | rfl) | rfl) | rfl) | rfl <;> decide

/-- A stretch is read up to the first element that is none of it. -/
theorem takeWhile_append_of_all {α : Type} {p : α → Bool} {w r : List α}
    (hw : ∀ b ∈ w, p b = true) (hr : ∀ b ∈ r.head?, p b = false) :
    (w ++ r).takeWhile p = w := by
  rw [List.takeWhile_append_of_pos hw]
  cases r with
  | nil => simp
  | cons b r => rw [List.takeWhile_cons, hr b rfl]; simp

/-- What is left begins with something that was not to be dropped. -/
theorem head?_dropWhile {α : Type} {p : α → Bool} {s : List α} :
    ∀ b ∈ (s.dropWhile p).head?, p b = false := by
  intro b hb
  have h := List.head?_dropWhile_not p s
  rwa [Option.mem_def.mp hb] at h

theorem drop_length_takeWhile {α : Type} (p : α → Bool) (s : List α) :
    s.drop (s.takeWhile p).length = s.dropWhile p := by
  have h : (s.takeWhile p ++ s.dropWhile p).drop (s.takeWhile p).length = s.dropWhile p :=
    List.drop_left
  rwa [List.takeWhile_append_dropWhile] at h

/-- The stretch that is dropped ends where it cannot go on. -/
theorem dropWhile_append_of_all {α : Type} {p : α → Bool} {w r : List α}
    (hw : ∀ b ∈ w, p b = true) (hr : ∀ b ∈ r.head?, p b = false) :
    (w ++ r).dropWhile p = r := by
  rw [← drop_length_takeWhile, takeWhile_append_of_all hw hr, List.drop_left]

/-- What is trimmed off the end are the last bytes that satisfy `p`, and no others. -/
theorem Bytes.trimEnd_append {p : UInt8 → Bool} {s w : Bytes} (hw : ∀ b ∈ w, p b = true)
    (hs : ∀ b ∈ s.getLast?, p b = false) : Bytes.trimEnd p (s ++ w) = s := by
  have hw' : ∀ b ∈ w.reverse, p b = true := fun b hb => hw b (List.mem_reverse.mp hb)
  have hs' : ∀ b ∈ s.reverse.head?, p b = false := by rwa [List.head?_reverse]
  rw [trimEnd, List.reverse_append, dropWhile_append_of_all hw' hs', List.reverse_reverse]

/-- Trimming takes bytes off the end. -/
theorem Bytes.exists_of_trimEnd (p : UInt8 → Bool) (s : Bytes) :
    ∃ w, s = trimEnd p s ++ w ∧ (∀ b ∈ w, p b = true) ∧
      ∀ b ∈ (trimEnd p s).getLast?, p b = false := by
  refine ⟨(s.reverse.takeWhile p).reverse, ?_, fun b hb => ?_, ?_⟩
  · rw [trimEnd, ← List.reverse_append, List.takeWhile_append_dropWhile, List.reverse_reverse]
  · exact List.mem_takeWhile_imp (List.mem_reverse.mp hb)
  · rw [trimEnd, List.getLast?_reverse]
    exact head?_dropWhile

/-- A text that is not read to its end goes on with the byte that stops the stretch. -/
theorem exists_of_takeWhile_ne {s : Bytes} {b : UInt8}
    (h : (s.takeWhile (· != b)).length ≠ s.length) : ∃ r, s = s.takeWhile (· != b) ++ b :: r := by
  have hsplit := List.takeWhile_append_dropWhile (p := (· != b)) (l := s)
  cases hd : s.dropWhile (· != b) with
  | nil =>
    rw [hd, List.append_nil] at hsplit
    exact absurd (congrArg List.length hsplit) h
  | cons x r =>
    have hx : x = b := by simpa using head?_dropWhile (p := (· != b)) x (by rw [hd]; rfl)
    subst hx
    exact ⟨r, by rw [← hd, hsplit]⟩

/-- A text that is read to its end is without the byte that would stop the stretch. -/
theorem not_mem_of_takeWhile_ne {s : Bytes} {b : UInt8}
    (h : (s.takeWhile (· != b)).length = s.length) : b ∉ s := by
  intro hmem
  rw [← (List.takeWhile_prefix _).eq_of_length h] at hmem
  simpa using List.mem_takeWhile_imp hmem

namespace Cursor

/-- Skipping as much as stands there leaves what stands behind it. -/
@[simp] theorem skip_append (pos : Nat) (s r : Bytes) :
    (⟨pos, s ++ r⟩ : Cursor).skip s.length = ⟨pos + s.length, r⟩ := by simp [skip]

/-- The skipped stretch ends where it cannot go on. -/
theorem skipWhile_append {p : UInt8 → Bool} {w r : Bytes} (pos : Nat) (hw : ∀ b ∈ w, p b = true)
    (hr : ∀ b ∈ r.head?, p b = false) :
    (⟨pos, w ++ r⟩ : Cursor).skipWhile p = ⟨pos + w.length, r⟩ := by
  rw [skipWhile, takeWhile_append_of_all hw hr, skip_append]

/-- Skipping splits the text into what is passed and what is left. -/
theorem exists_of_skipWhile (c : Cursor) (p : UInt8 → Bool) :
    ∃ w r, c.rest = w ++ r ∧ (∀ b ∈ w, p b = true) ∧ c.skipWhile p = ⟨c.pos + w.length, r⟩ := by
  have hw : ∀ b ∈ c.rest.takeWhile p, p b = true := fun b hb => List.mem_takeWhile_imp hb
  refine ⟨_, _, List.takeWhile_append_dropWhile.symm, hw, ?_⟩
  rw [← skipWhile_append c.pos hw head?_dropWhile, List.takeWhile_append_dropWhile]

/-- The cursor `c'` stands further on in the same text. -/
def Ahead (c c' : Cursor) : Prop := ∃ s, c.rest = s ++ c'.rest ∧ c'.pos = c.pos + s.length

variable {c c' c'' : Cursor}

theorem Ahead.refl (c : Cursor) : c.Ahead c := ⟨[], rfl, rfl⟩

/-- What is read in two steps is read in one. -/
theorem Ahead.trans (h : c.Ahead c') (h' : c'.Ahead c'') : c.Ahead c'' := by
  obtain ⟨s, hrest, hpos⟩ := h
  obtain ⟨s', hrest', hpos'⟩ := h'
  refine ⟨s ++ s', ?_, ?_⟩
  · rw [hrest, hrest', List.append_assoc]
  · rw [hpos', hpos, List.length_append, Nat.add_assoc]

/-- A cursor that moves on by no more than there is stays in the text. -/
theorem Ahead.skip (h : c.Ahead c') {n : Nat} (hn : n ≤ c'.rest.length) : c.Ahead (c'.skip n) :=
  h.trans ⟨c'.rest.take n, List.take_append_drop n c'.rest |>.symm, by simp [Cursor.skip, hn]⟩

/-- Skipping a stretch only moves the cursor ahead. -/
theorem Ahead.skipWhile (h : c.Ahead c') (p : UInt8 → Bool) : c.Ahead (c'.skipWhile p) :=
  h.skip (List.takeWhile_prefix p).length_le

end Cursor

/-! ## Names -/

/-- A name: a letter or an underscore, and what can stand in a name behind it. -/
def Bytes.IsName (s : Bytes) : Prop := Bytes.IsWord isNameStart isNamePart s

theorem isNamePart_of_isNameStart (c : Char) (h : isNameStart c = true) : isNamePart c = true := by
  simp only [isNameStart, isNamePart, Bool.or_eq_true] at h ⊢
  tauto

namespace Bytes

/-- A name that stands at the beginning is found as a whole. -/
theorem name_append {n r : Bytes} (hn : IsName n) (hr : Stops isNamePart r) : name (n ++ r) = n :=
  word_append isNamePart_of_isNameStart hn hr

/-- What is found at the beginning is a name, and nothing behind it belongs to it. -/
theorem isName_of_name {s : Bytes} (h : name s ≠ []) :
    IsName (name s) ∧ ∃ r, s = name s ++ r ∧ Stops isNamePart r :=
  isWord_of_word isNamePart_of_isNameStart h

/-- No ASCII character but those of names occurs in one. -/
theorem IsName.not_mem {n : Bytes} (hn : IsName n) {b : UInt8} (hb : b < 0x80)
    (hp : isNamePart (Char.ofNat b.toNat) = false) : b ∉ n := by
  intro hmem
  have := IsWord.part_of_mem isNamePart_of_isNameStart hn hmem hb
  rw [hp] at this
  exact absurd this (by decide)

theorem IsName.not_blank {n : Bytes} (hn : IsName n) : ∀ b ∈ n, isBlank b = false := by
  intro b hb
  by_contra h
  have hb' : isBlank b = true := by simpa using h
  exact hn.not_mem (lt_of_isBlank hb') (isNamePart_of_isBlank hb') hb

/-- Before a name there is nothing else to skip. -/
theorem IsName.head_append {n : Bytes} (hn : IsName n) (r : Bytes) :
    ∀ b ∈ (n ++ r).head?, b ∈ n := by
  obtain ⟨b, t, rfl⟩ := List.exists_cons_of_ne_nil (IsWord.ne_nil hn)
  simp

/-- Where a name begins, none has come to its end. -/
theorem IsName.not_stops {n : Bytes} (hn : IsName n) (r : Bytes) : ¬ Stops isNamePart (n ++ r) := by
  obtain ⟨c, cs, rfl, hc, -⟩ := hn
  intro h
  have := h c (ofChars cs ++ r) (by rw [ofChars_cons, List.append_assoc])
  rw [isNamePart_of_isNameStart c hc] at this
  cases this

/-- Where no name begins, none is read. -/
theorem name_cons_ascii {b : UInt8} (h : b < 0x80) (hb : isNameStart (Char.ofNat b.toNat) = false)
    (s : Bytes) : name (b :: s) = [] := word_of_stops (stops_cons h hb s)

end Bytes

/-- Skipping a name only moves the cursor ahead. -/
theorem Cursor.Ahead.skip_name {c c' : Cursor} (h : c.Ahead c') :
    c.Ahead (c'.skip c'.rest.name.length) := by
  by_cases hne : c'.rest.name = []
  · exact h.skip (by simp [hne])
  · obtain ⟨-, r, hr, -⟩ := Bytes.isName_of_name hne
    exact h.skip (hr ▸ List.prefix_append _ r).length_le

/-! ## Comments -/

/-- The text before the end mark of a comment is the body, if the mark does not stand in it. -/
theorem breakOn?_comment {body : Bytes} (h : ¬ Bytes.utf8 "-->" <:+: body) (rest : Bytes) :
    Bytes.breakOn? (body ++ (Bytes.utf8 "-->" ++ rest)) (Bytes.utf8 "-->") = some (body, rest) := by
  have hmark : Bytes.utf8 "-->" = [0x2D, 0x2D, 0x3E] := rfl
  induction body with
  | nil =>
    rw [Bytes.breakOn?.eq_def, if_pos]
    · simp
    · exact List.isPrefixOf_iff_prefix.mpr ⟨rest, by simp⟩
  | cons b body ih =>
    have hrest := ih fun hi => h (hi.trans (List.suffix_cons b body).isInfix)
    -- The mark does not overlap itself, so it cannot begin inside the body and end behind it.
    have hno : ¬ Bytes.utf8 "-->" <+: b :: body ++ (Bytes.utf8 "-->" ++ rest) := by
      rintro ⟨t, ht⟩
      rw [hmark] at ht h
      rcases body with _ | ⟨x, _ | ⟨y, body⟩⟩
      · simp at ht
      · simp at ht
      · refine h ⟨[], body, ?_⟩
        simp only [List.cons_append, List.nil_append, List.cons.injEq] at ht ⊢
        exact ⟨ht.1, ht.2.1, ht.2.2.1, trivial⟩
    rw [List.cons_append, Bytes.breakOn?.eq_def, if_neg (by rwa [List.isPrefixOf_iff_prefix])]
    simp only [hrest]
    rfl

/-- The text is broken at the first occurrence of the mark. -/
theorem not_infix_of_breakOn? {mark : Bytes} :
    ∀ {s body rest : Bytes}, Bytes.breakOn? s mark = some (body, rest) → mark ≠ [] →
      ¬ mark <:+: body
  | s, body, rest, h, hne => by
    have happ := Bytes.append_of_breakOn? h
    unfold Bytes.breakOn? at h
    split at h
    · obtain ⟨rfl, -⟩ := by simpa using h
      rwa [List.infix_nil]
    · next hp =>
      split at h
      · cases h
      · next b s =>
        obtain ⟨⟨x, y⟩, hxy, he⟩ := Option.map_eq_some_iff.mp h
        obtain ⟨rfl, rfl⟩ := by simpa using he
        rw [List.infix_cons_iff]
        rintro (hpre | hin)
        · refine hp (List.isPrefixOf_iff_prefix.mpr ?_)
          rw [← happ, List.append_assoc]
          exact hpre.trans (List.prefix_append _ _)
        · exact not_infix_of_breakOn? hxy hne hin

/-! ## Delimiters -/

theorem utf8_open : Bytes.utf8 "<" = [0x3C] := rfl

theorem utf8_openClosing : Bytes.utf8 "</" = [0x3C, 0x2F] := rfl

theorem utf8_openComment : Bytes.utf8 "<!--" = [0x3C, 0x21, 0x2D, 0x2D] := rfl

theorem utf8_closeComment : Bytes.utf8 "-->" = [0x2D, 0x2D, 0x3E] := rfl

theorem utf8_close : Bytes.utf8 ">" = [0x3E] := rfl

theorem utf8_selfClose : Bytes.utf8 "/>" = [0x2F, 0x3E] := rfl

theorem utf8_equals : Bytes.utf8 "=" = [0x3D] := rfl

theorem utf8_quote : Bytes.utf8 "\"" = [0x22] := rfl

@[simp] theorem toUInt8_open : '<'.toUInt8 = 0x3C := rfl

@[simp] theorem toUInt8_close : '>'.toUInt8 = 0x3E := rfl

@[simp] theorem toUInt8_slash : '/'.toUInt8 = 0x2F := rfl

@[simp] theorem toUInt8_equals : '='.toUInt8 = 0x3D := rfl

@[simp] theorem toUInt8_quote : '"'.toUInt8 = 0x22 := rfl

namespace Token

/-! ## What a step reads -/

/-- In mode `m` at offset `pos`, a text `s` with `rest` behind it is read as the token `t`, and the
scanner goes on in mode `m'`. -/
inductive Reads (pos : Nat) : Mode → Bytes → Bytes → Token → Mode → Prop
  | text {raw rest : Bytes} (hne : raw ≠ []) (hraw : '<'.toUInt8 ∉ raw)
      (hrest : ∀ b ∈ rest.head?, b = '<'.toUInt8) :
      Reads pos .content raw rest ⟨.text, raw, pos⟩ .content
  | comment {body rest : Bytes} (hbody : ¬ Bytes.utf8 "-->" <:+: body) :
      Reads pos .content (Bytes.utf8 "<!--" ++ body ++ Bytes.utf8 "-->") rest
        ⟨.comment, body, pos + 4⟩ .content
  | closeTag {name w rest : Bytes} (hname : name.IsName) (hw : ∀ b ∈ w, Bytes.isBlank b = true) :
      Reads pos .content (Bytes.utf8 "</" ++ name ++ w ++ Bytes.utf8 ">") rest
        ⟨.closeTag, name, pos + 2⟩ .content
  | openTag {name rest : Bytes} (hname : name.IsName) (hrest : rest.Stops isNamePart) :
      Reads pos .content (Bytes.utf8 "<" ++ name) rest ⟨.tagName, name, pos + 1⟩ (.tag pos)
  | key {start : Nat} {w name rest : Bytes} (hw : ∀ b ∈ w, Bytes.isBlank b = true)
      (hname : name.IsName) (hrest : rest.Stops isNamePart) :
      Reads pos (.tag start) (w ++ name) rest ⟨.key, name, pos + w.length⟩ (.value start)
  | tagEnd {start : Nat} {w rest : Bytes} (hw : ∀ b ∈ w, Bytes.isBlank b = true) :
      Reads pos (.tag start) (w ++ Bytes.utf8 ">") rest
        ⟨.tagEnd, Bytes.utf8 ">", pos + w.length⟩ .content
  | selfClose {start : Nat} {w rest : Bytes} (hw : ∀ b ∈ w, Bytes.isBlank b = true) :
      Reads pos (.tag start) (w ++ Bytes.utf8 "/>") rest
        ⟨.selfClose, Bytes.utf8 "/>", pos + w.length⟩ .content
  | value {start : Nat} {w w' value rest : Bytes} (hw : ∀ b ∈ w, Bytes.isBlank b = true)
      (hw' : ∀ b ∈ w', Bytes.isBlank b = true) (hvalue : '"'.toUInt8 ∉ value) :
      Reads pos (.value start)
        (w ++ Bytes.utf8 "=" ++ w' ++ Bytes.utf8 "\"" ++ value ++ Bytes.utf8 "\"") rest
        ⟨.value, value, pos + w.length + 1 + w'.length + 1⟩ (.tag start)

/-! ### A form that stands at the cursor is read -/

/-- Text goes on to the next opening mark. -/
theorem content_text {pos : Nat} {raw rest : Bytes} (hne : raw ≠ []) (hraw : '<'.toUInt8 ∉ raw)
    (hrest : ∀ b ∈ rest.head?, b = '<'.toUInt8) :
    content ⟨pos, raw ++ rest⟩ = .emit ⟨.text, raw, pos⟩ .content ⟨pos + raw.length, rest⟩ := by
  rw [toUInt8_open] at hraw hrest
  have htake : (raw ++ rest).takeWhile (· != 0x3C) = raw :=
    takeWhile_append_of_all (fun b hb => bne_iff_ne.mpr fun h => hraw (h ▸ hb))
      (fun b hb => by simp [hrest b hb])
  simp only [content, toUInt8_open, htake, List.isEmpty_eq_false_iff.mpr hne,
    List.isEmpty_eq_false_iff.mpr (List.append_ne_nil_of_left_ne_nil hne rest), Bool.false_eq_true,
    if_false, Bool.not_false, if_true, Cursor.skip_append]

/-- A comment goes on to the first mark that closes one. -/
theorem content_comment {pos : Nat} {body rest : Bytes} (hbody : ¬ Bytes.utf8 "-->" <:+: body) :
    content ⟨pos, Bytes.utf8 "<!--" ++ body ++ Bytes.utf8 "-->" ++ rest⟩
      = .emit ⟨.comment, body, pos + 4⟩ .content
          ⟨pos + (Bytes.utf8 "<!--" ++ body ++ Bytes.utf8 "-->").length, rest⟩ := by
  have hbreak := breakOn?_comment hbody rest
  have hskip : (⟨pos, Bytes.utf8 "<!--" ++ body ++ Bytes.utf8 "-->" ++ rest⟩ : Cursor).skip 4
      = ⟨pos + 4, body ++ (Bytes.utf8 "-->" ++ rest)⟩ := by
    simp [Cursor.skip, utf8_openComment]
  have hcomment : comment ⟨pos, Bytes.utf8 "<!--" ++ body ++ Bytes.utf8 "-->" ++ rest⟩
      = .emit ⟨.comment, body, pos + 4⟩ .content
          ⟨pos + (Bytes.utf8 "<!--" ++ body ++ Bytes.utf8 "-->").length, rest⟩ := by
    simp only [comment, hskip, hbreak]
    simp [Cursor.skip, utf8_openComment, utf8_closeComment]
    omega
  rw [← hcomment]
  simp [content, utf8_openComment]

/-- Blanks may stand behind the name of a closing tag. -/
theorem content_closeTag {pos : Nat} {name w rest : Bytes} (hname : name.IsName)
    (hw : ∀ b ∈ w, Bytes.isBlank b = true) :
    content ⟨pos, Bytes.utf8 "</" ++ name ++ w ++ Bytes.utf8 ">" ++ rest⟩
      = .emit ⟨.closeTag, name, pos + 2⟩ .content
          ⟨pos + (Bytes.utf8 "</" ++ name ++ w ++ Bytes.utf8 ">").length, rest⟩ := by
  have hstop : Bytes.Stops isNamePart (w ++ (Bytes.utf8 ">" ++ rest)) := by
    cases w with
    | nil => exact Bytes.stops_cons (by decide) (by decide) rest
    | cons b w =>
      have hb := hw b List.mem_cons_self
      exact Bytes.stops_cons (Bytes.lt_of_isBlank hb) (isNamePart_of_isBlank hb) _
  have hread := Bytes.name_append hname hstop
  have hinner : (⟨pos, Bytes.utf8 "</" ++ name ++ w ++ Bytes.utf8 ">" ++ rest⟩ : Cursor).skip 2
      = ⟨pos + 2, name ++ (w ++ (Bytes.utf8 ">" ++ rest))⟩ := by
    simp [Cursor.skip, utf8_openClosing]
  have hbehind := Cursor.skipWhile_append (p := Bytes.isBlank) (r := Bytes.utf8 ">" ++ rest)
    (pos + 2 + name.length) hw (fun b hb => by
      obtain rfl : (0x3E : UInt8) = b := by simpa [utf8_close] using hb
      decide)
  have hat : (⟨pos + 2 + name.length + w.length, Bytes.utf8 ">" ++ rest⟩ : Cursor).at? '>' = true :=
    (Cursor.at?_iff (by decide)).mpr ⟨rest, rfl⟩
  have hclose : closeTag ⟨pos, Bytes.utf8 "</" ++ name ++ w ++ Bytes.utf8 ">" ++ rest⟩
      = .emit ⟨.closeTag, name, pos + 2⟩ .content
          ⟨pos + (Bytes.utf8 "</" ++ name ++ w ++ Bytes.utf8 ">").length, rest⟩ := by
    simp only [closeTag, hinner, hread, Cursor.skip_append, hbehind, hat, if_true,
      List.isEmpty_eq_false_iff.mpr (Bytes.IsWord.ne_nil hname), Bool.false_eq_true, if_false]
    simp [Cursor.skip, utf8_openClosing, utf8_close]
    omega
  rw [← hclose]
  simp [content, utf8_openComment, utf8_openClosing]

/-- The name of a start tag goes as far as it can, and the tag begins at its mark. -/
theorem content_openTag {pos : Nat} {name rest : Bytes} (hname : name.IsName)
    (hrest : rest.Stops isNamePart) :
    content ⟨pos, Bytes.utf8 "<" ++ name ++ rest⟩
      = .emit ⟨.tagName, name, pos + 1⟩ (.tag pos)
          ⟨pos + (Bytes.utf8 "<" ++ name).length, rest⟩ := by
  have hread := Bytes.name_append hname hrest
  have hinner : (⟨pos, Bytes.utf8 "<" ++ name ++ rest⟩ : Cursor).skip 1
      = ⟨pos + 1, name ++ rest⟩ := by
    simp [Cursor.skip, utf8_open]
  have hopen : openTag ⟨pos, Bytes.utf8 "<" ++ name ++ rest⟩
      = .emit ⟨.tagName, name, pos + 1⟩ (.tag pos)
          ⟨pos + (Bytes.utf8 "<" ++ name).length, rest⟩ := by
    simp only [openTag, hinner, hread, Cursor.skip_append,
      List.isEmpty_eq_false_iff.mpr (Bytes.IsWord.ne_nil hname), Bool.false_eq_true, if_false]
    simp [utf8_open]
    omega
  -- No name begins with the second byte of another delimiter.
  obtain ⟨b, t, rfl⟩ := List.exists_cons_of_ne_nil (Bytes.IsWord.ne_nil hname)
  have hbang : ¬ 0x21 = b := fun h =>
    hname.not_mem (b := 0x21) (by decide) (by decide) (h ▸ List.mem_cons_self)
  have hslash : ¬ 0x2F = b := fun h =>
    hname.not_mem (b := 0x2F) (by decide) (by decide) (h ▸ List.mem_cons_self)
  rw [← hopen]
  simp [content, utf8_open, utf8_openComment, utf8_openClosing, hbang, hslash]

/-- Blanks may stand before a key. -/
theorem inTag_key {pos start : Nat} {w name rest : Bytes} (hw : ∀ b ∈ w, Bytes.isBlank b = true)
    (hname : name.IsName) (hrest : rest.Stops isNamePart) :
    inTag start ⟨pos, w ++ name ++ rest⟩
      = .emit ⟨.key, name, pos + w.length⟩ (.value start) ⟨pos + (w ++ name).length, rest⟩ := by
  have hread := Bytes.name_append hname hrest
  have hskip := Cursor.skipWhile_append (p := Bytes.isBlank) (r := name ++ rest) pos hw
    fun b hb => hname.not_blank b (hname.head_append rest b hb)
  simp only [inTag, List.append_assoc, hskip, hread, Cursor.skip_append,
    List.isEmpty_eq_false_iff.mpr (Bytes.IsWord.ne_nil hname), Bool.not_false, if_true,
    List.length_append, Nat.add_assoc]

/-- Blanks may stand before the mark that ends a tag. -/
theorem inTag_tagEnd {pos start : Nat} {w rest : Bytes} (hw : ∀ b ∈ w, Bytes.isBlank b = true) :
    inTag start ⟨pos, w ++ Bytes.utf8 ">" ++ rest⟩
      = .emit ⟨.tagEnd, Bytes.utf8 ">", pos + w.length⟩ .content
          ⟨pos + (w ++ Bytes.utf8 ">").length, rest⟩ := by
  have hskip := Cursor.skipWhile_append (p := Bytes.isBlank) (r := 0x3E :: rest) pos hw
    fun b hb => by obtain rfl : (0x3E : UInt8) = b := by simpa using hb
                   decide
  have hread : Bytes.name (0x3E :: rest) = [] := Bytes.name_cons_ascii (by decide) (by decide) rest
  simp [inTag, utf8_close, hskip, hread, Cursor.at?_cons, Cursor.skip, Nat.add_assoc]

/-- Blanks may stand before the mark that ends and closes a tag. -/
theorem inTag_selfClose {pos start : Nat} {w rest : Bytes} (hw : ∀ b ∈ w, Bytes.isBlank b = true) :
    inTag start ⟨pos, w ++ Bytes.utf8 "/>" ++ rest⟩
      = .emit ⟨.selfClose, Bytes.utf8 "/>", pos + w.length⟩ .content
          ⟨pos + (w ++ Bytes.utf8 "/>").length, rest⟩ := by
  have hskip := Cursor.skipWhile_append (p := Bytes.isBlank) (r := 0x2F :: 0x3E :: rest) pos hw
    fun b hb => by obtain rfl : (0x2F : UInt8) = b := by simpa using hb
                   decide
  have hread : Bytes.name (0x2F :: 0x3E :: rest) = [] :=
    Bytes.name_cons_ascii (by decide) (by decide) _
  simp [inTag, utf8_selfClose, hskip, hread, Cursor.at?_cons, Cursor.skip, Nat.add_assoc]

/-- Blanks may stand around the equals sign, and the value goes on to the next quote. -/
theorem inValue_value {pos start : Nat} {w w' value rest : Bytes}
    (hw : ∀ b ∈ w, Bytes.isBlank b = true) (hw' : ∀ b ∈ w', Bytes.isBlank b = true)
    (hvalue : '"'.toUInt8 ∉ value) :
    inValue start
        ⟨pos, w ++ Bytes.utf8 "=" ++ w' ++ Bytes.utf8 "\"" ++ value ++ Bytes.utf8 "\"" ++ rest⟩
      = .emit ⟨.value, value, pos + w.length + 1 + w'.length + 1⟩ (.tag start)
          ⟨pos + (w ++ Bytes.utf8 "=" ++ w' ++ Bytes.utf8 "\"" ++ value ++ Bytes.utf8 "\"").length,
            rest⟩ := by
  rw [toUInt8_quote] at hvalue
  have hequals := Cursor.skipWhile_append (p := Bytes.isBlank)
    (r := 0x3D :: (w' ++ 0x22 :: (value ++ 0x22 :: rest))) pos hw
    fun b hb => by obtain rfl : (0x3D : UInt8) = b := by simpa using hb
                   decide
  have hquote := Cursor.skipWhile_append (p := Bytes.isBlank)
    (r := 0x22 :: (value ++ 0x22 :: rest)) (pos + w.length + 1) hw'
    fun b hb => by obtain rfl : (0x22 : UInt8) = b := by simpa using hb
                   decide
  have htake : (value ++ 0x22 :: rest).takeWhile (· != 0x22) = value :=
    takeWhile_append_of_all (fun b hb => bne_iff_ne.mpr fun h => hvalue (h ▸ hb)) (by simp)
  simp [inValue, utf8_equals, utf8_quote, hequals, Cursor.at?_cons, Cursor.skip, hquote, htake]
  omega

/-! ### A step that emits has read one of the forms -/

/-- The cursor `c'` stands behind a form that is read at `c`. -/
def Passes (m : Mode) (c : Cursor) (t : Token) (m' : Mode) (c' : Cursor) : Prop :=
  ∃ s, c.rest = s ++ c'.rest ∧ c'.pos = c.pos + s.length ∧ Reads c.pos m s c'.rest t m'

/-- A comment that is emitted has come to its end. -/
theorem passes_of_comment {c c' : Cursor} {t : Token} {m : Mode}
    (hopen : Bytes.utf8 "<!--" <+: c.rest) (h : comment c = .emit t m c') :
    Passes .content c t m c' := by
  obtain ⟨inner, hinner⟩ := hopen
  have hskip : c.skip 4 = ⟨c.pos + 4, inner⟩ := by
    rw [Cursor.skip, ← hinner]
    rfl
  simp only [comment, hskip] at h
  split at h
  · cases h
  · next body after hbreak =>
    obtain ⟨rfl, rfl, rfl⟩ := Step.emit.inj h
    have hbody := not_infix_of_breakOn? hbreak (by decide)
    have happ := Bytes.append_of_breakOn? hbreak
    have hrest : ((⟨c.pos + 4, inner⟩ : Cursor).skip (body.length + 3)).rest = after := by
      rw [← happ, Cursor.skip]
      simp [utf8_closeComment]
    refine ⟨Bytes.utf8 "<!--" ++ body ++ Bytes.utf8 "-->", ?_, ?_, .comment hbody⟩
    · rw [hrest, ← hinner, ← happ]
      simp
    · simp [Cursor.skip, utf8_openComment, utf8_closeComment]
      omega

/-- A closing tag that is emitted has a name and has come to its end. -/
theorem passes_of_closeTag {c c' : Cursor} {t : Token} {m : Mode}
    (hopen : Bytes.utf8 "</" <+: c.rest) (h : closeTag c = .emit t m c') :
    Passes .content c t m c' := by
  obtain ⟨inner, hinner⟩ := hopen
  have hskip : c.skip 2 = ⟨c.pos + 2, inner⟩ := by
    rw [Cursor.skip, ← hinner]
    rfl
  simp only [closeTag, hskip] at h
  split at h
  · exact absurd h misplaced_ne_emit
  · next hne =>
    obtain ⟨hname, r, hr, -⟩ := Bytes.isName_of_name (mt List.isEmpty_iff.mpr hne)
    generalize Bytes.name inner = name at h hname hr
    subst hr
    rw [Cursor.skip_append] at h
    obtain ⟨w, r', hw, hblank, hbehind⟩ :=
      Cursor.exists_of_skipWhile ⟨c.pos + 2 + name.length, r⟩ Bytes.isBlank
    obtain rfl : r = w ++ r' := hw
    rw [hbehind] at h
    split at h
    · next hat =>
      obtain ⟨rest, rfl⟩ := (Cursor.at?_iff (by decide)).mp hat
      obtain ⟨rfl, rfl, rfl⟩ := Step.emit.inj h
      refine ⟨Bytes.utf8 "</" ++ name ++ w ++ Bytes.utf8 ">", ?_, ?_, .closeTag hname hblank⟩
      · simp [← hinner, Cursor.skip, utf8_close]
      · simp [Cursor.skip, utf8_openClosing, utf8_close]
        omega
    · exact absurd h misplaced_ne_emit

/-- The name of a start tag is not empty. -/
theorem passes_of_openTag {c c' : Cursor} {t : Token} {m : Mode}
    (hopen : Bytes.utf8 "<" <+: c.rest) (h : openTag c = .emit t m c') :
    Passes .content c t m c' := by
  obtain ⟨inner, hinner⟩ := hopen
  have hskip : c.skip 1 = ⟨c.pos + 1, inner⟩ := by
    rw [Cursor.skip, ← hinner]
    rfl
  simp only [openTag, hskip] at h
  split at h
  · exact absurd h misplaced_ne_emit
  · next hne =>
    obtain ⟨hname, r, hr, hstop⟩ := Bytes.isName_of_name (mt List.isEmpty_iff.mpr hne)
    generalize Bytes.name inner = name at h hname hr
    subst hr
    rw [Cursor.skip_append] at h
    obtain ⟨rfl, rfl, rfl⟩ := Step.emit.inj h
    refine ⟨Bytes.utf8 "<" ++ name, ?_, ?_, .openTag hname hstop⟩
    · simp [← hinner]
    · simp [utf8_open]
      omega

/-- Between tags, what is emitted is a text, a comment, a closing tag or the name of a start tag. -/
theorem passes_of_content {c c' : Cursor} {t : Token} {m : Mode} (h : content c = .emit t m c') :
    Passes .content c t m c' := by
  simp only [content] at h
  split at h
  · cases h
  · next hne =>
    split at h
    · next htext =>
      obtain ⟨rfl, rfl, rfl⟩ := Step.emit.inj h
      have hsplit := List.takeWhile_append_dropWhile (p := (· != '<'.toUInt8)) (l := c.rest)
      have hrest : (c.skip (c.rest.takeWhile (· != '<'.toUInt8)).length).rest
          = c.rest.dropWhile (· != '<'.toUInt8) := drop_length_takeWhile _ _
      refine ⟨_, ?_, rfl, .text ?_ ?_ ?_⟩
      · rw [hrest, hsplit]
      · simpa using htext
      · exact fun hmem => by simpa using List.mem_takeWhile_imp hmem
      · rw [hrest]
        exact fun b hb => by simpa using head?_dropWhile b hb
    · next htext =>
      split at h
      · next hpre => exact passes_of_comment (List.isPrefixOf_iff_prefix.mp hpre) h
      · split at h
        · next hpre => exact passes_of_closeTag (List.isPrefixOf_iff_prefix.mp hpre) h
        · refine passes_of_openTag ?_ h
          obtain ⟨b, s, hs⟩ := List.exists_cons_of_ne_nil (mt List.isEmpty_iff.mpr hne)
          rw [hs] at htext ⊢
          have hb : b = 0x3C := by
            by_contra hb
            simp [hb] at htext
          exact ⟨s, by rw [hb]; rfl⟩

/-- In a tag, what is emitted is a key or one of the ends. -/
theorem passes_of_inTag {start : Nat} {c c' : Cursor} {t : Token} {m : Mode}
    (h : inTag start c = .emit t m c') : Passes (.tag start) c t m c' := by
  obtain ⟨w, r, hw, hblank, hskip⟩ := Cursor.exists_of_skipWhile c Bytes.isBlank
  simp only [inTag, hskip] at h
  split at h
  · next hne =>
    obtain ⟨hname, r', hr, hstop⟩ := Bytes.isName_of_name (s := r) (by simpa using hne)
    generalize Bytes.name r = name at h hname hr
    subst hr
    rw [Cursor.skip_append] at h
    obtain ⟨rfl, rfl, rfl⟩ := Step.emit.inj h
    refine ⟨w ++ name, ?_, ?_, .key hblank hname hstop⟩
    · simp [hw]
    · simp
      omega
  · split at h
    · next hat =>
      obtain ⟨rest, rfl⟩ := (Cursor.at?_iff (by decide)).mp hat
      obtain ⟨rfl, rfl, rfl⟩ := Step.emit.inj h
      refine ⟨w ++ Bytes.utf8 ">", ?_, ?_, .tagEnd hblank⟩
      · simp [hw, Cursor.skip, utf8_close]
      · simp [Cursor.skip, utf8_close]
        omega
    · split at h
      · next hat =>
        obtain ⟨rest, rfl⟩ := (Cursor.at?_iff (by decide)).mp hat
        split at h
        · next hat' =>
          obtain ⟨rest', hrest'⟩ := (Cursor.at?_iff (by decide)).mp hat'
          obtain rfl : rest = '>'.toUInt8 :: rest' := hrest'
          obtain ⟨rfl, rfl, rfl⟩ := Step.emit.inj h
          refine ⟨w ++ Bytes.utf8 "/>", ?_, ?_, .selfClose hblank⟩
          · simp [hw, Cursor.skip, utf8_selfClose]
          · simp [Cursor.skip, utf8_selfClose]
            omega
        · exact absurd h misplaced_ne_emit
      · exact absurd h misplaced_ne_emit

/-- Behind a key, what is emitted is a value in quotes. -/
theorem passes_of_inValue {start : Nat} {c c' : Cursor} {t : Token} {m : Mode}
    (h : inValue start c = .emit t m c') : Passes (.value start) c t m c' := by
  obtain ⟨w, r, hw, hblank, hskip⟩ := Cursor.exists_of_skipWhile c Bytes.isBlank
  simp only [inValue, hskip] at h
  split at h
  · next hat =>
    obtain ⟨r, rfl⟩ := (Cursor.at?_iff (by decide)).mp hat
    obtain ⟨w', r', hw', hblank', hskip'⟩ :=
      Cursor.exists_of_skipWhile ((⟨c.pos + w.length, '='.toUInt8 :: r⟩ : Cursor).skip 1)
        Bytes.isBlank
    obtain rfl : r = w' ++ r' := hw'
    rw [hskip'] at h
    split at h
    · next hat' =>
      obtain ⟨s, rfl⟩ := (Cursor.at?_iff (by decide)).mp hat'
      split at h
      · cases h
      · next hlen =>
        obtain ⟨rfl, rfl, rfl⟩ := Step.emit.inj h
        obtain ⟨rest, hs⟩ := exists_of_takeWhile_ne hlen
        have hvalue : '"'.toUInt8 ∉ s.takeWhile (· != '"'.toUInt8) := fun hmem => by
          simpa using List.mem_takeWhile_imp hmem
        simp only [Cursor.skip, List.drop_succ_cons, List.drop_zero] at hs ⊢
        generalize s.takeWhile (· != '"'.toUInt8) = value at hs hvalue ⊢
        subst hs
        refine ⟨w ++ Bytes.utf8 "=" ++ w' ++ Bytes.utf8 "\"" ++ value ++ Bytes.utf8 "\"", ?_, ?_,
          .value hblank hblank' hvalue⟩
        · simp [hw, utf8_equals, utf8_quote]
        · simp [utf8_equals, utf8_quote]
          omega
    · exact absurd h misplaced_ne_emit
  · exact absurd h misplaced_ne_emit

/-- **A form that stands at the cursor is read.** -/
theorem step_of_reads {pos : Nat} {m m' : Mode} {s rest : Bytes} {t : Token}
    (h : Reads pos m s rest t m') :
    step m ⟨pos, s ++ rest⟩ = .emit t m' ⟨pos + s.length, rest⟩ := by
  cases h with
  | text hne hraw hrest => exact content_text hne hraw hrest
  | comment hbody => exact content_comment hbody
  | closeTag hname hw => exact content_closeTag hname hw
  | openTag hname hrest => exact content_openTag hname hrest
  | key hw hname hrest => exact inTag_key hw hname hrest
  | tagEnd hw => exact inTag_tagEnd hw
  | selfClose hw => exact inTag_selfClose hw
  | value hw hw' hvalue => exact inValue_value hw hw' hvalue

/-- **A step emits a token exactly if the text ahead begins with a form of that token.** -/
theorem step_eq_emit_iff {m m' : Mode} {c c' : Cursor} {t : Token} :
    step m c = .emit t m' c' ↔ Passes m c t m' c' := by
  constructor
  · intro h
    cases m with
    | content => exact passes_of_content h
    | tag start => exact passes_of_inTag h
    | value start => exact passes_of_inValue h
  · obtain ⟨pos, rest⟩ := c
    obtain ⟨pos', rest'⟩ := c'
    rintro ⟨s, hrest, hpos, hreads⟩
    simp only at hrest hpos hreads
    subst hrest hpos
    exact step_of_reads hreads

/-! ### A step that halts is at the end, or has found a fault -/

/-- In mode `m`, the scanner stops at the cursor `c` with the token `t`: at the end of the text, or
with a fault and what it is found at. -/
inductive Halts (m : Mode) (c : Cursor) : Token → Prop
  | finish (hm : m = .content) (hend : c.rest = []) : Halts m c ⟨.finish, [], c.pos⟩
  | openTag (hm : m = .content) (hopen : Bytes.utf8 "<" <+: c.rest) :
      Halts m c ⟨.fault .unterminatedTag, [], c.pos⟩
  | inTag {start : Nat} (hm : m = .tag start ∨ m = .value start) :
      Halts m c ⟨.fault .unterminatedTag, [], start⟩
  | comment (hm : m = .content) (hopen : Bytes.utf8 "<!--" <+: c.rest) :
      Halts m c ⟨.fault .unterminatedComment, [], c.pos⟩
  | value {c' : Cursor} {body : Bytes} (hahead : c.Ahead c')
      (hopen : c'.rest = Bytes.utf8 "\"" ++ body) (hbody : '"'.toUInt8 ∉ body) :
      Halts m c ⟨.fault .unterminatedValue, [], c'.pos⟩
  | glyph {c' : Cursor} {place : Fault.Place} {g : Glyph} (hahead : c.Ahead c')
      (hpeek : c'.peek = some g) : Halts m c ⟨.fault (.unexpectedGlyph place g), [], c'.pos⟩

section Halts

variable {m : Mode} {c c' : Cursor} {t : Token}

/-- What is out of place in a tag is a glyph, or the end of the text. -/
theorem halts_of_misplaced {start : Nat} {place : Fault.Place}
    (hstart : Halts m c ⟨.fault .unterminatedTag, [], start⟩) (hahead : c.Ahead c')
    (h : misplaced start place c' = .halt t) : Halts m c t := by
  unfold misplaced at h
  split at h
  · obtain rfl := Step.halt.inj h
    exact hstart
  · next hpeek =>
    obtain rfl := Step.halt.inj h
    exact .glyph hahead hpeek

/-- A comment is refused if nothing closes it. -/
theorem halts_of_comment (hopen : Bytes.utf8 "<!--" <+: c.rest) (h : comment c = .halt t) :
    Halts .content c t := by
  simp only [comment] at h
  split at h
  · obtain rfl := Step.halt.inj h
    exact .comment rfl hopen
  · contradiction

/-- A closing tag is refused at a glyph, or if nothing closes it. -/
theorem halts_of_closeTag (hopen : Bytes.utf8 "</" <+: c.rest) (h : closeTag c = .halt t) :
    Halts .content c t := by
  have htag : Bytes.utf8 "<" <+: Bytes.utf8 "</" := by decide
  have hinner : c.Ahead (c.skip 2) := (Cursor.Ahead.refl c).skip hopen.length_le
  simp only [closeTag] at h
  split at h
  · exact halts_of_misplaced (.openTag rfl (htag.trans hopen)) hinner h
  · split at h
    · contradiction
    · exact halts_of_misplaced (.openTag rfl (htag.trans hopen)) (hinner.skip_name.skipWhile _) h

/-- A start tag is refused if its name is missing. -/
theorem halts_of_openTag (hopen : Bytes.utf8 "<" <+: c.rest) (h : openTag c = .halt t) :
    Halts .content c t := by
  simp only [openTag] at h
  split at h
  · exact halts_of_misplaced (.openTag rfl hopen) ((Cursor.Ahead.refl c).skip hopen.length_le) h
  · contradiction

/-- Where no character data comes next, and the text is not at its end, there is a tag. -/
theorem tag_ahead {s : Bytes} (hne : s ≠ []) (htext : s.takeWhile (· != '<'.toUInt8) = []) :
    Bytes.utf8 "<" <+: s := by
  obtain ⟨b, r, rfl⟩ := List.exists_cons_of_ne_nil hne
  obtain rfl : b = '<'.toUInt8 := by simpa using htext
  exact ⟨r, rfl⟩

theorem halts_of_content (h : content c = .halt t) : Halts .content c t := by
  simp only [content] at h
  split at h
  · next hend =>
    obtain rfl := Step.halt.inj h
    exact .finish rfl (List.isEmpty_iff.mp hend)
  · next hne =>
    split at h
    · contradiction
    · next htext =>
      split at h
      · next hopen => exact halts_of_comment (List.isPrefixOf_iff_prefix.mp hopen) h
      · split at h
        · next hopen => exact halts_of_closeTag (List.isPrefixOf_iff_prefix.mp hopen) h
        · refine halts_of_openTag (tag_ahead (mt List.isEmpty_iff.mpr hne) ?_) h
          simpa using htext

theorem halts_of_inTag {start : Nat} (h : inTag start c = .halt t) : Halts (.tag start) c t := by
  have hskip := (Cursor.Ahead.refl c).skipWhile Bytes.isBlank
  simp only [inTag] at h
  split at h
  · contradiction
  · split at h
    · contradiction
    · split at h
      · next hat =>
        split at h
        · contradiction
        · exact halts_of_misplaced (.inTag (.inl rfl)) (hskip.skip (length_pos_of_at? hat)) h
      · exact halts_of_misplaced (.inTag (.inl rfl)) hskip h

/-- A value is refused at a glyph before it, at its quote if no other one follows, or if the text
ends before it. -/
theorem halts_of_inValue {start : Nat} (h : inValue start c = .halt t) :
    Halts (.value start) c t := by
  have hskip := (Cursor.Ahead.refl c).skipWhile Bytes.isBlank
  simp only [inValue] at h
  split at h
  · next hat =>
    have hquote := (hskip.skip (length_pos_of_at? hat)).skipWhile Bytes.isBlank
    split at h
    · next hat' =>
      split at h
      · next hlength =>
        obtain rfl := Step.halt.inj h
        obtain ⟨body, hbody⟩ := (Cursor.at?_iff (by decide)).mp hat'
        refine .value hquote hbody (not_mem_of_takeWhile_ne ?_)
        rwa [Cursor.skip, hbody] at hlength
      · contradiction
    · exact halts_of_misplaced (.inTag (.inr rfl)) hquote h
  · exact halts_of_misplaced (.inTag (.inr rfl)) hskip h

/-- **Where a step halts, there is what it halts for.** -/
theorem halts_of_step (h : step m c = .halt t) : Halts m c t := by
  rcases m with _ | start | start
  · exact halts_of_content h
  · exact halts_of_inTag h
  · exact halts_of_inValue h

/-- A scanner stops at the end of the text, between tags, or else with a fault. -/
theorem finish_or_fault_of_halt (h : step m c = .halt t) :
    (m = .content ∧ c.rest = [] ∧ t = ⟨.finish, [], c.pos⟩) ∨ ∃ f, t.kind = .fault f := by
  obtain ⟨hm, hend⟩ | _ | _ | _ | _ | _ := halts_of_step h
  · exact .inl ⟨hm, hend, rfl⟩
  all_goals exact .inr ⟨_, rfl⟩

end Halts

end Token

end LayoutMarkup

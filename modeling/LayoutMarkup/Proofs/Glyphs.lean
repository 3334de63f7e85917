import LayoutMarkup.Text.Cursor
import Mathlib.Data.List.Basic
import Mathlib.Tactic.Common

/-!
# Proofs/Glyphs — characters at the beginning of a text

Reading undoes writing: a text that begins with the UTF-8 form of a character is read as that
character (`glyph?_encode_append`), and only such a text is (`eq_encode_append_of_glyph?`).  So the
stretch `takeChars p` is the longest one: what comes behind it begins with no character that
satisfies `p`.

A byte below 0x80 is a character of its own and part of no other, so ASCII can be told byte by byte.
-/

/-! ## Results

What a computation that can fail has come to, said of its parts. -/

/-- A mapped result is there if the result is. -/
theorem Except.map_eq_ok_iff {ε α β : Type} {f : α → β} {r : Except ε α} {b : β} :
    r.map f = .ok b ↔ ∃ a, r = .ok a ∧ f a = b := by
  cases r <;> simp [Except.map]

/-- Two steps succeed if both do. -/
theorem Except.bind_eq_ok_iff {ε α β : Type} {f : α → Except ε β} {r : Except ε α} {b : β} :
    r.bind f = .ok b ↔ ∃ a, r = .ok a ∧ f a = .ok b := by
  cases r <;> simp [Except.bind]

/-- Mapping a result keeps the error. -/
theorem Except.map_eq_error_iff {ε α β : Type} {f : α → β} {r : Except ε α} {e : ε} :
    r.map f = .error e ↔ r = .error e := by
  cases r <;> simp [Except.map]

/-- Two steps fail with the error of the first one that does. -/
theorem Except.bind_eq_error_iff {ε α β : Type} {f : α → Except ε β} {r : Except ε α} {e : ε} :
    r.bind f = .error e ↔ r = .error e ∨ ∃ a, r = .ok a ∧ f a = .error e := by
  cases r <;> simp [Except.bind]

namespace LayoutMarkup

/-- What is said about all items of a list is decided item by item, also where the type of the items
is finite. -/
instance (priority := high) decidableForallMem {α : Type} {p : α → Prop} [DecidablePred p]
    (l : List α) : Decidable (∀ a ∈ l, p a) :=
  List.decidableBAll p l

namespace Bytes

/-- The UTF-8 form of a sequence of characters. -/
def ofChars (cs : List Char) : Bytes := cs.flatMap String.utf8EncodeChar

@[simp] theorem ofChars_nil : ofChars [] = [] := rfl

@[simp] theorem ofChars_cons (c : Char) (cs : List Char) :
    ofChars (c :: cs) = String.utf8EncodeChar c ++ ofChars cs := rfl

@[simp] theorem ofChars_append (cs ds : List Char) :
    ofChars (cs ++ ds) = ofChars cs ++ ofChars ds := List.flatMap_append

/-! ## One character -/

/-- An encoded character is decoded, whatever follows. -/
theorem char?_encode_append (c : Char) (s : Bytes) :
    char? (String.utf8EncodeChar c ++ s) = some c := by
  have hlen : (String.utf8EncodeChar c).length ≤ 4 := by
    rw [String.length_utf8EncodeChar]
    exact c.utf8Size_le_four
  have htake : (String.utf8EncodeChar c ++ s).take 4
      = String.utf8EncodeChar c ++ s.take (4 - (String.utf8EncodeChar c).length) := by
    rw [List.take_append, List.take_of_length_le hlen]
  have harr : (⟨((String.utf8EncodeChar c ++ s).take 4).toArray⟩ : ByteArray)
      = (String.utf8EncodeChar c).toByteArray
        ++ (s.take (4 - (String.utf8EncodeChar c).length)).toByteArray := by
    rw [htake, ← List.toByteArray_append]
    exact ByteArray.ext (List.data_toByteArray).symm
  rw [char?, harr]
  exact ByteArray.utf8DecodeChar?_utf8EncodeChar_append

/-- What is decoded was encoded there. -/
theorem eq_encode_append_of_char? {s : Bytes} {c : Char} (h : char? s = some c) :
    s = String.utf8EncodeChar c ++ s.drop c.utf8Size := by
  have harr : (⟨(s.take 4).toArray⟩ : ByteArray) = (s.take 4).toByteArray :=
    ByteArray.ext (List.data_toByteArray).symm
  rw [char?, harr] at h
  obtain ⟨l, hl⟩ := ByteArray.exists_of_utf8DecodeChar?_eq_some h
  have hpre : s.take 4 = String.utf8EncodeChar c ++ l.data.toList := by
    have := congrArg (fun b : ByteArray => b.data.toList) hl
    simpa using this
  have hs : s = String.utf8EncodeChar c ++ (l.data.toList ++ s.drop 4) := by
    rw [← List.append_assoc, ← hpre, List.take_append_drop]
  have hd : s.drop c.utf8Size = l.data.toList ++ s.drop 4 := by
    rw [← String.length_utf8EncodeChar]
    nth_rewrite 1 [hs]
    rw [List.drop_left]
  rw [hd]
  exact hs

/-- **Reading a character that has been written.** -/
theorem glyph?_encode_append (c : Char) (s : Bytes) :
    glyph? (String.utf8EncodeChar c ++ s) = some (.char c, s) := by
  have hc := char?_encode_append c s
  have hne : String.utf8EncodeChar c ++ s ≠ [] :=
    List.append_ne_nil_of_left_ne_nil String.utf8EncodeChar_ne_nil s
  obtain ⟨b, t, hb⟩ := List.exists_cons_of_ne_nil hne
  have hd : (String.utf8EncodeChar c ++ s).drop c.utf8Size = s := by
    rw [← String.length_utf8EncodeChar, List.drop_left]
  rw [hb] at hc hd ⊢
  simp only [glyph?, hc, hd]

/-- …and only such a text is read as that character. -/
theorem eq_encode_append_of_glyph? {s rest : Bytes} {c : Char}
    (h : glyph? s = some (.char c, rest)) : s = String.utf8EncodeChar c ++ rest := by
  unfold glyph? at h
  split at h
  · cases h
  · split at h
    · next hc =>
      cases h
      exact eq_encode_append_of_char? hc
    · cases h

/-- A stray byte is the first byte. -/
theorem eq_cons_of_glyph? {s rest : Bytes} {b : UInt8} (h : glyph? s = some (.stray b, rest)) :
    s = b :: rest := by
  unfold glyph? at h
  split at h
  · cases h
  · split at h <;> cases h
    rfl

/-- A glyph is read from its bytes. -/
theorem eq_bytes_append_of_glyph? {s rest : Bytes} {g : Glyph} (h : glyph? s = some (g, rest)) :
    s = g.bytes ++ rest := by
  cases g with
  | char c => exact eq_encode_append_of_glyph? h
  | stray b => exact eq_cons_of_glyph? h

/-- A text is read to its end: only the empty one has no glyph. -/
theorem glyph?_eq_none {s : Bytes} (h : glyph? s = none) : s = [] := by
  unfold glyph? at h
  split at h
  · rfl
  · split at h <;> cases h

/-! ## ASCII -/

/-- An ASCII character is encoded as a single byte. -/
theorem encode_ascii {c : Char} (h : c.toNat < 0x80) : String.utf8EncodeChar c = [c.toUInt8] := by
  refine String.utf8EncodeChar_eq_singleton ?_
  rw [Char.utf8Size_eq_one_iff, UInt32.le_iff_toNat_le]
  exact Nat.le_of_lt_succ h

theorem toNat_ofNat_byte (b : UInt8) : (Char.ofNat b.toNat).toNat = b.toNat := by
  have hb := b.toNat_lt
  have hv : b.toNat.isValidChar := Or.inl (by omega)
  rw [Char.ofNat, dif_pos hv]
  rfl

/-- An ASCII byte encodes the character with its number. -/
theorem encode_byte {b : UInt8} (h : b < 0x80) :
    String.utf8EncodeChar (Char.ofNat b.toNat) = [b] := by
  have hlt : b.toNat < 0x80 := UInt8.lt_iff_toNat_lt.mp h
  rw [encode_ascii (by rw [toNat_ofNat_byte]; exact hlt)]
  refine congrArg (· :: []) (UInt8.toNat_inj.mp ?_)
  have hn : (Char.ofNat b.toNat).val.toNat = b.toNat := toNat_ofNat_byte b
  rw [Char.toUInt8, UInt32.toNat_toUInt8, hn]
  omega

/-- An ASCII byte is a glyph of its own. -/
theorem glyph?_ascii {b : UInt8} (h : b < 0x80) (s : Bytes) :
    glyph? (b :: s) = some (.char (Char.ofNat b.toNat), s) := by
  have := glyph?_encode_append (Char.ofNat b.toNat) s
  rwa [encode_byte h] at this

/-- A byte of a character beyond ASCII is none of ASCII. -/
theorem le_of_mem_encode {c : Char} (hc : 0x80 ≤ c.toNat) {b : UInt8}
    (hb : b ∈ String.utf8EncodeChar c) : 0x80 ≤ b := by
  have hor : ∀ x y : UInt8, 0x80 ≤ y → 0x80 ≤ x ||| y := fun x y h =>
    UInt8.le_iff_toNat_le.mpr
      (Nat.le_trans (UInt8.le_iff_toNat_le.mp h) (by rw [UInt8.toNat_or]; exact Nat.right_le_or))
  have hge : c.utf8Size ≠ 1 := by
    rw [Ne, Char.utf8Size_eq_one_iff, UInt32.le_iff_toNat_le]
    exact Nat.not_le.mpr hc
  have hpos := c.utf8Size_pos
  have hle := c.utf8Size_le_four
  obtain h | h | h : c.utf8Size = 2 ∨ c.utf8Size = 3 ∨ c.utf8Size = 4 := by omega
  · rw [String.utf8EncodeChar_eq_cons_cons h] at hb
    rcases (by simpa using hb : _ ∨ _) with rfl | rfl <;> exact hor _ _ (by decide)
  · rw [String.utf8EncodeChar_eq_cons_cons_cons h] at hb
    rcases (by simpa using hb : _ ∨ _ ∨ _) with rfl | rfl | rfl <;> exact hor _ _ (by decide)
  · rw [String.utf8EncodeChar_eq_cons_cons_cons_cons h] at hb
    rcases (by simpa using hb : _ ∨ _ ∨ _ ∨ _) with rfl | rfl | rfl | rfl <;>
      exact hor _ _ (by decide)

/-- **A byte of ASCII belongs to no character but its own.** -/
theorem eq_ofNat_of_mem_encode {c : Char} {b : UInt8} (hb : b ∈ String.utf8EncodeChar c)
    (h : b < 0x80) : c = Char.ofNat b.toNat := by
  have hlt : c.toNat < 0x80 := by
    by_contra hc
    exact absurd h (UInt8.not_lt.mpr (le_of_mem_encode (Nat.le_of_not_lt hc) hb))
  have hmem : b ∈ [c.toUInt8] := encode_ascii hlt ▸ hb
  obtain rfl := List.mem_singleton.mp hmem
  have := glyph?_encode_append c []
  rw [encode_ascii hlt, List.append_nil, glyph?_ascii h] at this
  exact (Glyph.char.inj (Prod.mk.inj (Option.some.inj this)).1).symm

end Bytes

/-- The cursor is at an ASCII character if its byte comes next. -/
theorem Cursor.at?_iff {c : Cursor} {x : Char} (hx : x.toNat < 0x80) :
    c.at? x = true ↔ ∃ rest, c.rest = x.toUInt8 :: rest := by
  have hw := Bytes.encode_ascii hx
  rw [Cursor.at?, beq_iff_eq, Cursor.peek, Option.map_eq_some_iff]
  constructor
  · rintro ⟨⟨g, rest⟩, hg, rfl⟩
    exact ⟨rest, by simpa [hw] using Bytes.eq_encode_append_of_glyph? hg⟩
  · rintro ⟨rest, hr⟩
    refine ⟨(.char x, rest), ?_, rfl⟩
    have := Bytes.glyph?_encode_append x rest
    rwa [hw, List.singleton_append, ← hr] at this

theorem Cursor.at?_cons {x : Char} (hx : x.toNat < 0x80) (pos : Nat) (b : UInt8) (s : Bytes) :
    (⟨pos, b :: s⟩ : Cursor).at? x = (b == x.toUInt8) := by
  rw [Bool.eq_iff_iff, at?_iff hx, beq_iff_eq]
  simp

namespace Bytes

/-! ## Stretches of characters -/

/-- The text begins with no character that satisfies `p`. -/
def Stops (p : Char → Bool) (s : Bytes) : Prop :=
  ∀ c t, s = String.utf8EncodeChar c ++ t → p c = false

/-- A stretch ends with the text. -/
theorem stops_nil (p : Char → Bool) : Stops p [] := fun _ _ h =>
  absurd (List.append_eq_nil_iff.mp h.symm).1 String.utf8EncodeChar_ne_nil

/-- A stretch ends before an ASCII character that does not belong to it. -/
theorem stops_cons {p : Char → Bool} {b : UInt8} (h : b < 0x80)
    (hp : p (Char.ofNat b.toNat) = false) (s : Bytes) : Stops p (b :: s) := by
  intro c t hs
  have hc := glyph?_encode_append c t
  rw [← hs, glyph?_ascii h] at hc
  rwa [← Glyph.char.inj (Prod.mk.inj (Option.some.inj hc)).1]

theorem takeChars_encode_append (p : Char → Bool) (c : Char) (s : Bytes) :
    takeChars p (String.utf8EncodeChar c ++ s)
      = if p c then String.utf8EncodeChar c ++ takeChars p s else [] := by
  have hg := glyph?_encode_append c s
  rw [takeChars]
  split
  · next d rest hd =>
    rw [hg] at hd
    cases hd
    rw [← String.length_utf8EncodeChar, List.take_left]
  · next hd => exact absurd hg (hd c s)

/-- Nothing is taken where the stretch has ended. -/
theorem takeChars_of_stops {p : Char → Bool} {s : Bytes} (h : Stops p s) : takeChars p s = [] := by
  rw [takeChars]
  split
  · next c rest hg =>
    have := h c rest (eq_encode_append_of_glyph? hg)
    simp [this]
  · rfl

/-- The stretch that is taken ends where it cannot go on. -/
theorem takeChars_ofChars_append {p : Char → Bool} {rest : Bytes} (hr : Stops p rest) :
    ∀ {cs : List Char}, (∀ c ∈ cs, p c = true) → takeChars p (ofChars cs ++ rest) = ofChars cs
  | [], _ => takeChars_of_stops hr
  | c :: cs, h => by
    rw [ofChars_cons, List.append_assoc, takeChars_encode_append, h c List.mem_cons_self,
      takeChars_ofChars_append hr fun x hx => h x (List.mem_cons_of_mem _ hx)]
    rfl

/-- **The stretch is a sequence of characters that satisfy `p`, and the longest one.** -/
theorem exists_chars_of_takeChars (p : Char → Bool) (s : Bytes) :
    ∃ cs rest, takeChars p s = ofChars cs ∧ (∀ c ∈ cs, p c = true) ∧ s = ofChars cs ++ rest ∧
      Stops p rest := by
  by_cases hs : Stops p s
  · exact ⟨[], s, takeChars_of_stops hs, by simp, rfl, hs⟩
  · obtain ⟨c, t, rfl, hc⟩ : ∃ c t, s = String.utf8EncodeChar c ++ t ∧ p c = true := by
      simpa [Stops] using hs
    have hlt : t.length < (String.utf8EncodeChar c ++ t).length := by
      have := c.utf8Size_pos
      rw [List.length_append, String.length_utf8EncodeChar]
      omega
    obtain ⟨cs, rest, htake, hall, rfl, hrest⟩ := exists_chars_of_takeChars p t
    refine ⟨c :: cs, rest, ?_, ?_, by simp, hrest⟩
    · rw [takeChars_encode_append, if_pos hc, htake, ofChars_cons]
    · exact List.forall_mem_cons.mpr ⟨hc, hall⟩
termination_by s.length

/-! ## Words -/

/-- A word: a character satisfying `start` and others satisfying `part` behind it. -/
def IsWord (start part : Char → Bool) (w : Bytes) : Prop :=
  ∃ c cs, w = ofChars (c :: cs) ∧ start c = true ∧ ∀ x ∈ cs, part x = true

variable {start part : Char → Bool}

/-- A word has at least its first character. -/
theorem IsWord.ne_nil {w : Bytes} (h : IsWord start part w) : w ≠ [] := by
  obtain ⟨c, cs, rfl, -⟩ := h
  exact List.append_ne_nil_of_left_ne_nil String.utf8EncodeChar_ne_nil _

/-- No word is found where none can begin. -/
theorem word_of_stops {s : Bytes} (h : Stops start s) : word start part s = [] := by
  unfold word
  split
  · next c rest hg => rw [h c rest (eq_encode_append_of_glyph? hg)]; rfl
  · rfl

variable (hsub : ∀ c, start c = true → part c = true)
include hsub

/-- A word is read as a whole where no more of it can follow. -/
theorem word_append {w rest : Bytes} (hw : IsWord start part w) (hr : Stops part rest) :
    word start part (w ++ rest) = w := by
  obtain ⟨c, cs, rfl, hc, hcs⟩ := hw
  have hall : ∀ x ∈ c :: cs, part x = true := List.forall_mem_cons.mpr ⟨hsub c hc, hcs⟩
  rw [word, ofChars_cons, List.append_assoc, glyph?_encode_append]
  simp only [hc, if_true]
  rw [← List.append_assoc, ← ofChars_cons, takeChars_ofChars_append hr hall]

/-- …and whatever is read as a word is one, and no more of it follows. -/
theorem isWord_of_word {s : Bytes} (h : word start part s ≠ []) :
    IsWord start part (word start part s) ∧
      ∃ rest, s = word start part s ++ rest ∧ Stops part rest := by
  unfold word at h ⊢
  split at h
  · next c rest hg =>
    obtain rfl := eq_encode_append_of_glyph? hg
    cases hc : start c with
    | false => simp [hc] at h
    | true =>
      obtain ⟨cs, t, htake, hall, rfl, ht⟩ := exists_chars_of_takeChars part rest
      have hword : takeChars part (String.utf8EncodeChar c ++ (ofChars cs ++ t))
          = ofChars (c :: cs) := by
        rw [takeChars_encode_append, hsub c hc, htake]
        rfl
      simp only [if_true, hword]
      exact ⟨⟨c, cs, rfl, hc, hall⟩, t, by simp, ht⟩
  · exact absurd rfl h

/-- The ASCII bytes of a word are parts of one. -/
theorem IsWord.part_of_mem {w : Bytes} (hw : IsWord start part w) {b : UInt8} (hb : b ∈ w)
    (h : b < 0x80) : part (Char.ofNat b.toNat) = true := by
  obtain ⟨c, cs, rfl, hc, hcs⟩ := hw
  obtain ⟨x, hx, hbx⟩ := List.mem_flatMap.mp hb
  rw [← eq_ofNat_of_mem_encode hbx h]
  rcases List.mem_cons.mp hx with rfl | hx
  · exact hsub x hc
  · exact hcs x hx

end Bytes

end LayoutMarkup

import LayoutMarkup.Proofs.Grammar

/-!
# Proofs/Parsing — reading accepts exactly what can be written

`Document.parse_eq_ok_iff`: a text is read as a document exactly if it is a way to write it, and no
more elements are open at once than allowed.

From right to left, the scanner and the builder are run over the forms of the grammar
(`run_written`).  Void elements that stay open make the builder differ from one that has closed
them, but not in what the next closing tag, or the end of the text, makes of it (`Builder.Closes`).
From left to right, what has been read so far can always be gone on with (`Builder.Progress`).
-/

namespace LayoutMarkup

namespace Token

theorem scanFrom_of_emit {m m' : Mode} {c c' : Cursor} {t : Token} (h : step m c = .emit t m' c') :
    scanFrom m c = t :: scanFrom m' c' := by
  rw [scanFrom]
  split
  · next h' => rw [h] at h'; cases h'
  · next h' => rw [h] at h'; cases h'; rfl

theorem scanFrom_of_halt {m : Mode} {c : Cursor} {t : Token} (h : step m c = .halt t) :
    scanFrom m c = [t] := by
  rw [scanFrom]
  split
  · next h' => rw [h] at h'; cases h'; rfl
  · next h' => rw [h] at h'; cases h'

end Token

namespace Builder

/-- Scanning from a cursor on, with the builder taking each token. -/
def run (o : ParseOptions) (src : Bytes) (m : Token.Mode) (c : Cursor) (b : Builder) :
    Except ParseError Builder :=
  (Token.scanFrom m c).foldlM (take o src) b

variable {o : ParseOptions} {src : Bytes}

/-- The last token decides what becomes of the builder. -/
theorem run_of_halt {m : Token.Mode} {c : Cursor} {t : Token} {b : Builder}
    (h : Token.step m c = .halt t) : run o src m c b = take o src b t := by
  rw [run, Token.scanFrom_of_halt h, List.foldlM_cons]
  cases take o src b t <;> rfl

/-- A token is taken, and the run goes on behind it. -/
theorem run_of_emit {m m' : Token.Mode} {c c' : Cursor} {t : Token} {b : Builder}
    (h : Token.step m c = .emit t m' c') :
    run o src m c b = (take o src b t).bind (run o src m' c') := by
  rw [run, Token.scanFrom_of_emit h, List.foldlM_cons]
  rfl

/-- A form that stands at the cursor is taken, and the run goes on behind it. -/
theorem run_of_reads {m m' : Token.Mode} {pos : Nat} {s rest : Bytes} {t : Token} {b b' : Builder}
    (h : Token.Reads pos m s rest t m') (hb : take o src b t = .ok b') :
    run o src m ⟨pos, s ++ rest⟩ b = run o src m' ⟨pos + s.length, rest⟩ b' := by
  rw [run_of_emit (Token.step_of_reads h), hb]
  rfl

/-! ## Start tags -/

theorem stops_of_blanks {w r : Bytes} (hw : ∀ b ∈ w, Bytes.isBlank b = true)
    (hr : r.Stops isNamePart) : (w ++ r).Stops isNamePart := by
  cases w with
  | nil => exact hr
  | cons b w =>
    have hb := hw b List.mem_cons_self
    exact Bytes.stops_cons (Bytes.lt_of_isBlank hb) (isNamePart_of_isBlank hb) _

/-- The name in a start tag does not go on with its attributes, nor with what comes behind. -/
theorem stops_of_attributes {t w rest : Bytes} (hgap : ∀ b ∈ t.head?, Bytes.isBlank b = true)
    (hw : ∀ b ∈ w, Bytes.isBlank b = true) (hrest : rest.Stops isNamePart) :
    (t ++ (w ++ rest)).Stops isNamePart := by
  rcases t with _ | ⟨b, t⟩
  · rw [List.nil_append]
    exact stops_of_blanks hw hrest
  · have hb := hgap b rfl
    exact Bytes.stops_cons (Bytes.lt_of_isBlank hb) (isNamePart_of_isBlank hb) _

/-- The text of attributes is read into the start tag, one after the other. -/
theorem run_attributes {start : Nat} {as : List Attribute} {s : Bytes}
    (h : Attribute.AllWritten as s) (rest : Bytes) (b : Builder) :
    ∀ (pos : Nat) (d : Draft), d.key = none →
      run o src (.tag start) ⟨pos, s ++ rest⟩ { b with draft := some d }
        = run o src (.tag start) ⟨pos + s.length, rest⟩
            { b with draft := some { d with attributes := as.reverse ++ d.attributes } } := by
  induction h with
  | nil => intro pos d _; rfl
  | @cons w s t a as hw ha _ ih =>
    intro pos d hd
    obtain @⟨key, w₁, w₂, value, hkey, hw₁, hw₂, hvalue⟩ := ha
    generalize hv : w₁ ++ Bytes.utf8 "=" ++ w₂ ++ Bytes.utf8 "\"" ++ value ++ Bytes.utf8 "\"" = v
    have hstop : Bytes.Stops isNamePart (v ++ (t ++ rest)) := by
      simp only [← hv, List.append_assoc]
      exact stops_of_blanks hw₁ (Bytes.stops_cons (by decide) (by decide) _)
    calc run o src (.tag start) ⟨pos, w ++ (key ++ v) ++ t ++ rest⟩ { b with draft := some d }
        = run o src (.tag start) ⟨pos, (w ++ key) ++ (v ++ (t ++ rest))⟩
            { b with draft := some d } := by simp only [List.append_assoc]
      _ = run o src (.value start) ⟨pos + (w ++ key).length, v ++ (t ++ rest)⟩
            { b with draft := some { d with key := some key } } :=
          run_of_reads (.key hw hkey hstop) (by simp [take, takeInTag, hd])
      _ = run o src (.tag start) ⟨pos + (w ++ key).length + v.length, t ++ rest⟩
            { b with draft := some { d with attributes := ⟨key, value⟩ :: d.attributes } } := by
          rw [← hv]
          exact run_of_reads (.value hw₁ hw₂ hvalue) (by simp [take, takeInTag, hd])
      _ = run o src (.tag start) ⟨pos + (w ++ key).length + v.length + t.length, rest⟩
            ⟨b.nodes, b.stack,
              some { d with attributes := as.reverse ++ ⟨key, value⟩ :: d.attributes }⟩ :=
          ih _ _ hd
      _ = run o src (.tag start) ⟨pos + (w ++ (key ++ v) ++ t).length, rest⟩
            ⟨b.nodes, b.stack,
              some { d with attributes := (⟨key, value⟩ :: as).reverse ++ d.attributes }⟩ := by
          simp [Nat.add_assoc]

/-- A start tag is read up to the blanks before its end. -/
theorem run_startTag {name s : Bytes} {as : List Attribute} (h : StartTag.Written ⟨name, as⟩ s)
    {rest : Bytes} (hrest : rest.Stops isNamePart) (pos : Nat) (nodes : List Node)
    (stack : List OpenElement) :
    ∃ t w, s = t ++ w ∧ (∀ b ∈ w, Bytes.isBlank b = true) ∧
      run o src .content ⟨pos, s ++ rest⟩ ⟨nodes, stack, none⟩
        = run o src (.tag pos) ⟨pos + t.length, w ++ rest⟩
            ⟨nodes, stack, some ⟨name, pos, as.reverse, none⟩⟩ := by
  obtain @⟨_, t, w, _, hname, has, hgap, hw⟩ := h
  refine ⟨Bytes.utf8 "<" ++ name ++ t, w, by simp only [List.append_assoc], hw, ?_⟩
  have hstop := stops_of_attributes hgap hw hrest
  calc run o src .content ⟨pos, Bytes.utf8 "<" ++ name ++ (t ++ w) ++ rest⟩ ⟨nodes, stack, none⟩
      = run o src .content ⟨pos, Bytes.utf8 "<" ++ name ++ (t ++ (w ++ rest))⟩
          ⟨nodes, stack, none⟩ := by simp only [List.append_assoc]
    _ = run o src (.tag pos) ⟨pos + (Bytes.utf8 "<" ++ name).length, t ++ (w ++ rest)⟩
          ⟨nodes, stack, some ⟨name, pos, [], none⟩⟩ := run_of_reads (.openTag hname hstop) rfl
    _ = run o src (.tag pos) ⟨pos + (Bytes.utf8 "<" ++ name).length + t.length, w ++ rest⟩
          ⟨nodes, stack, some ⟨name, pos, as.reverse ++ [], none⟩⟩ :=
        run_attributes has (w ++ rest) ⟨nodes, stack, none⟩ _ ⟨name, pos, [], none⟩ rfl
    _ = run o src (.tag pos) ⟨pos + (Bytes.utf8 "<" ++ name ++ t).length, w ++ rest⟩
          ⟨nodes, stack, some ⟨name, pos, as.reverse, none⟩⟩ := by simp [Nat.add_assoc]

/-- A tag that closes its own element leaves it among its siblings. -/
theorem run_selfClosing {name s : Bytes} {as : List Attribute} (h : StartTag.Written ⟨name, as⟩ s)
    (rest : Bytes) (pos : Nat) (nodes : List Node) (stack : List OpenElement) :
    run o src .content ⟨pos, s ++ Bytes.utf8 "/>" ++ rest⟩ ⟨nodes, stack, none⟩
      = run o src .content ⟨pos + (s ++ Bytes.utf8 "/>").length, rest⟩
          ⟨.element name as [] true :: nodes, stack, none⟩ := by
  have hstop : Bytes.Stops isNamePart (Bytes.utf8 "/>" ++ rest) :=
    Bytes.stops_cons (by decide) (by decide) _
  obtain ⟨t, w, rfl, hw, htag⟩ := run_startTag (o := o) h hstop pos nodes stack
  rw [List.append_assoc _ _ rest, htag, ← List.append_assoc w,
    run_of_reads (.selfClose hw) (show take o src _ _ = .ok _ from rfl)]
  simp [Nat.add_assoc]

/-- An element is opened if there is room for it. -/
theorem run_opening {name s : Bytes} {as : List Attribute} (h : StartTag.Written ⟨name, as⟩ s)
    (rest : Bytes) (pos : Nat) (nodes : List Node) {stack : List OpenElement}
    (hroom : stack.length < o.maxDepth) :
    run o src .content ⟨pos, s ++ Bytes.utf8 ">" ++ rest⟩ ⟨nodes, stack, none⟩
      = run o src .content ⟨pos + (s ++ Bytes.utf8 ">").length, rest⟩
          ⟨[], ⟨⟨name, as⟩, pos, nodes⟩ :: stack, none⟩ := by
  have hstop : Bytes.Stops isNamePart (Bytes.utf8 ">" ++ rest) :=
    Bytes.stops_cons (by decide) (by decide) _
  obtain ⟨t, w, rfl, hw, htag⟩ := run_startTag (o := o) h hstop pos nodes stack
  have htake : take o src ⟨nodes, stack, some ⟨name, pos, as.reverse, none⟩⟩
      ⟨.tagEnd, Bytes.utf8 ">", pos + t.length + w.length⟩
        = .ok ⟨[], ⟨⟨name, as⟩, pos, nodes⟩ :: stack, none⟩ := by
    simp [take, takeInTag, takeTagEnd, hroom]
  rw [List.append_assoc _ _ rest, htag, ← List.append_assoc w, run_of_reads (.tagEnd hw) htake]
  simp [Nat.add_assoc]

/-! ## Siblings -/

/-- Two builders come to the same at the next closing tag `closer`, or at the end of the text if
there is none. -/
def Closes (void : NameSet) (closer : Option Bytes) (b b' : Builder) : Prop :=
  match closer with
  | none => closeAll void b.nodes b.stack = closeAll void b'.nodes b'.stack
  | some name => closeTo void name b.nodes b.stack = closeTo void name b'.nodes b'.stack

theorem Closes.refl (void : NameSet) (closer : Option Bytes) (b : Builder) :
    Closes void closer b b := by
  cases closer <;> rfl

/-- What is closed in two steps is closed in one. -/
theorem Closes.trans {void : NameSet} {closer : Option Bytes} {b b' b'' : Builder}
    (h : Closes void closer b b') (h' : Closes void closer b' b'') : Closes void closer b b'' := by
  cases closer with
  | none => exact Eq.trans h h'
  | some name => exact Eq.trans h h'

/-- A void element that is still open comes to the same as one that has been closed, unless the next
closing tag is its own. -/
theorem closes_unclosed {void : NameSet} {closer : Option Bytes} {e : OpenElement}
    (hvoid : e.tag.name ∈ void) (hcloser : closer ≠ some e.tag.name) (nodes : List Node)
    (stack : List OpenElement) :
    Closes void closer ⟨nodes, e :: stack, none⟩ ⟨e.close nodes, stack, none⟩ := by
  have hv : void.has e.tag.name = true := NameSet.has_iff.mpr hvoid
  cases closer with
  | none => simp [Closes, closeAll, hv]
  | some name =>
    have hne : e.tag.name ≠ name := fun h => hcloser (h ▸ rfl)
    simp [Closes, closeTo, hv, hne]

/-- An element with a closing tag of its own is read as a whole, if what is inside it is read up to
void elements that are still open. -/
theorem run_element {name s inner w : Bytes} {as : List Attribute} {children before : List Node}
    {stack : List OpenElement} {b : Builder} {pos : Nat} (htag : StartTag.Written ⟨name, as⟩ s)
    (hw : ∀ b ∈ w, Bytes.isBlank b = true) (rest : Bytes) (hroom : stack.length < o.maxDepth)
    (hdraft : b.draft = none)
    (hrun : run o src .content ⟨pos + (s ++ Bytes.utf8 ">").length,
          inner ++ (Bytes.utf8 "</" ++ name ++ w ++ Bytes.utf8 ">" ++ rest)⟩
          ⟨[], ⟨⟨name, as⟩, pos, before⟩ :: stack, none⟩
        = run o src .content ⟨pos + (s ++ Bytes.utf8 ">").length + inner.length,
            Bytes.utf8 "</" ++ name ++ w ++ Bytes.utf8 ">" ++ rest⟩ b)
    (hcloses : Closes o.void (some name) b
      ⟨children.reverse ++ [], ⟨⟨name, as⟩, pos, before⟩ :: stack, none⟩) :
    run o src .content ⟨pos, s ++ Bytes.utf8 ">" ++ inner ++
        (Bytes.utf8 "</" ++ name ++ w ++ Bytes.utf8 ">") ++ rest⟩ ⟨before, stack, none⟩
      = run o src .content ⟨pos + (s ++ Bytes.utf8 ">" ++ inner ++
          (Bytes.utf8 "</" ++ name ++ w ++ Bytes.utf8 ">")).length, rest⟩
          ⟨.element name as children false :: before, stack, none⟩ := by
  have htake : take o src b
        ⟨.closeTag, name, pos + (s ++ Bytes.utf8 ">").length + inner.length + 2⟩
      = .ok ⟨.element name as children false :: before, stack, none⟩ := by
    have hclose : closeTo o.void name b.nodes b.stack
        = .ok (.element name as children false :: before, stack) := by
      rw [hcloses]
      simp [closeTo, OpenElement.close]
    simp [take, hdraft, takeInContent, takeCloseTag, hclose]
  generalize hv : Bytes.utf8 "</" ++ name ++ w ++ Bytes.utf8 ">" = v at hrun ⊢
  calc run o src .content ⟨pos, s ++ Bytes.utf8 ">" ++ inner ++ v ++ rest⟩ ⟨before, stack, none⟩
      = run o src .content ⟨pos, s ++ Bytes.utf8 ">" ++ (inner ++ (v ++ rest))⟩
          ⟨before, stack, none⟩ := by simp only [List.append_assoc]
    _ = run o src .content ⟨pos + (s ++ Bytes.utf8 ">").length + inner.length, v ++ rest⟩ b := by
        rw [run_opening htag _ _ _ hroom, hrun]
    _ = run o src .content ⟨pos + (s ++ Bytes.utf8 ">").length + inner.length + v.length, rest⟩
          ⟨.element name as children false :: before, stack, none⟩ := by
        rw [← hv]
        exact run_of_reads (.closeTag htag.isName hw) htake
    _ = run o src .content ⟨pos + (s ++ Bytes.utf8 ">" ++ inner ++ v).length, rest⟩
          ⟨.element name as children false :: before, stack, none⟩ := by
        simp only [List.length_append, Nat.add_assoc]

/-- If the last of the siblings is an element, the closing tag that comes next would be its own; so
it has not been left open. -/
def LastClosed (closer : Option Bytes) (nodes : List Node) : Prop :=
  ∀ name as children, nodes.getLast? = some (.element name as children false) → closer = some name

theorem LastClosed.tail {closer : Option Bytes} {n : Node} {nodes : List Node}
    (h : LastClosed closer (n :: nodes)) : LastClosed closer nodes := by
  intro name as children hlast
  refine h name as children ?_
  rw [List.getLast?_cons, hlast]
  rfl

/-- **What is written is read**: the builder gets the siblings, up to void elements that are still
open, and just the siblings if none is. -/
theorem run_written {closer : Option Bytes} {nodes : List Node} {s : Bytes}
    (h : Document.Written o.void closer nodes s) :
    ∀ (rest : Bytes), (∀ b ∈ rest.head?, b = '<'.toUInt8) → ∀ (pos : Nat) (before : List Node)
      (stack : List OpenElement), stack.length + Node.nestingAll nodes ≤ o.maxDepth →
      ∃ b, b.draft = none ∧
        run o src .content ⟨pos, s ++ rest⟩ ⟨before, stack, none⟩
          = run o src .content ⟨pos + s.length, rest⟩ b ∧
        Closes o.void closer b ⟨nodes.reverse ++ before, stack, none⟩ ∧
        (LastClosed closer nodes → b = ⟨nodes.reverse ++ before, stack, none⟩) := by
  induction h with
  | nil =>
    intro rest _ pos before stack _
    exact ⟨⟨before, stack, none⟩, rfl, rfl, Closes.refl _ _ _, fun _ => rfl⟩
  | @text closer raw t nodes hne hraw hnext hnodes ih =>
    intro rest hrest pos before stack hroom
    have hhead : ∀ b ∈ (t ++ rest).head?, b = '<'.toUInt8 := by
      have := hnodes.head hnext
      cases t with
      | nil => exact hrest
      | cons b t => exact this
    obtain ⟨b, hb, hrun, hcloses, hexact⟩ := ih rest hrest (pos + raw.length)
      (.text raw :: before) stack hroom
    refine ⟨b, hb, ?_, by simpa using hcloses, fun hlast => by simpa using hexact hlast.tail⟩
    rw [List.append_assoc, run_of_reads (.text hne hraw hhead) rfl, hrun, List.length_append,
      Nat.add_assoc]
  | @comment closer body t nodes hbody hnodes ih =>
    intro rest hrest pos before stack hroom
    obtain ⟨b, hb, hrun, hcloses, hexact⟩ := ih rest hrest
      (pos + (Bytes.utf8 "<!--" ++ body ++ Bytes.utf8 "-->").length) (.comment body :: before) stack
      hroom
    refine ⟨b, hb, ?_, by simpa using hcloses, fun hlast => by simpa using hexact hlast.tail⟩
    rw [List.append_assoc, run_of_reads (.comment hbody) rfl, hrun]
    simp only [List.length_append, Nat.add_assoc]
  | @selfClosing closer name s t as nodes htag hnodes ih =>
    intro rest hrest pos before stack hroom
    obtain ⟨b, hb, hrun, hcloses, hexact⟩ := ih rest hrest (pos + (s ++ Bytes.utf8 "/>").length)
      (.element name as [] true :: before) stack hroom
    refine ⟨b, hb, ?_, by simpa using hcloses, fun hlast => by simpa using hexact hlast.tail⟩
    rw [List.append_assoc, run_selfClosing htag, hrun]
    simp only [List.length_append, Nat.add_assoc]
  | @closed closer name s inner w t as children nodes htag hinner hw hnodes ihinner ih =>
    intro rest hrest pos before stack hroom
    simp only [Node.nestingAll, Node.nesting, Bool.false_eq_true, if_false] at hroom
    have hhead : ∀ b ∈ (Bytes.utf8 "</" ++ name ++ w ++ Bytes.utf8 ">" ++ (t ++ rest)).head?,
        b = '<'.toUInt8 := by simp [utf8_openClosing]
    -- The children are read with the element open, and its closing tag then ends it.
    obtain ⟨b, hb, hrun, hcloses, -⟩ := ihinner _ hhead (pos + (s ++ Bytes.utf8 ">").length) []
      (⟨⟨name, as⟩, pos, before⟩ :: stack) (by simp only [List.length_cons]; omega)
    have helement := run_element htag hw (t ++ rest) (by omega) hb hrun hcloses
    obtain ⟨b', hb', hrun', hcloses', hexact⟩ := ih rest hrest _
      (.element name as children false :: before) stack (by omega)
    refine ⟨b', hb', ?_, by simpa using hcloses', fun hlast => by simpa using hexact hlast.tail⟩
    rw [List.append_assoc _ t, helement, hrun']
    simp only [List.length_append, Nat.add_assoc]
  | @unclosed closer name s inner as children htag hvoid hcloser hinner ih =>
    intro rest hrest pos before stack hroom
    simp only [Node.nestingAll, Node.nesting, Bool.false_eq_true, if_false] at hroom
    obtain ⟨b, hb, hrun, hcloses, -⟩ := ih rest hrest (pos + (s ++ Bytes.utf8 ">").length) []
      (⟨⟨name, as⟩, pos, before⟩ :: stack) (by simp only [List.length_cons]; omega)
    refine ⟨b, hb, ?_, hcloses.trans ?_, fun hlast => absurd (hlast _ _ _ rfl) hcloser⟩
    · rw [List.append_assoc, run_opening htag _ _ _ (by omega), hrun]
      simp only [List.length_append, Nat.add_assoc]
    · have := closes_unclosed (e := ⟨⟨name, as⟩, pos, before⟩) hvoid hcloser
        (children.reverse ++ []) stack
      simpa [OpenElement.close] using this

/-! ## What has been read can be gone on with -/

/-- The siblings read so far, the last one first: whatever can be written behind them, with no text
next to text, makes a way to write them all. -/
def Begun (void : NameSet) (nodes : List Node) (s : Bytes) : Prop :=
  ∀ {closer : Option Bytes} {more : List Node} {t : Bytes}, Document.Written void closer more t →
    (∀ n ∈ nodes.head?, n.isText = true → ∀ m ∈ more.head?, m.isText = false) →
      Document.Written void closer (nodes.reverse ++ more) (s ++ t)

section Begun

variable {void : NameSet} {nodes : List Node} {s : Bytes}

theorem begun_nil : Begun void [] [] := fun h _ => h

/-- What has been read so far is complete as it is. -/
theorem Begun.written (h : Begun void nodes s) (closer : Option Bytes) :
    Document.Written void closer nodes.reverse s := by
  have hnil : Document.Written void closer [] [] := .nil
  simpa using h hnil (by simp)

theorem Begun.text (h : Begun void nodes s) {raw : Bytes} (hne : raw ≠ [])
    (hraw : '<'.toUInt8 ∉ raw) (hlast : ∀ n ∈ nodes.head?, n.isText = false) :
    Begun void (.text raw :: nodes) (s ++ raw) := by
  intro closer more t hmore hnext
  rw [List.reverse_cons, List.append_assoc, List.append_assoc]
  refine h (.text hne hraw (hnext _ rfl rfl) hmore) fun n hn ht => ?_
  rw [hlast n hn] at ht
  cases ht

/-- Behind a sibling that is no text, and complete, anything may follow. -/
theorem Begun.cons (h : Begun void nodes s) {n : Node} {u : Bytes} (hn : n.isText = false)
    (hu : ∀ {closer : Option Bytes} {more : List Node} {t : Bytes},
      Document.Written void closer more t → Document.Written void closer (n :: more) (u ++ t)) :
    Begun void (n :: nodes) (s ++ u) := by
  intro closer more t hmore _
  rw [List.reverse_cons, List.append_assoc, List.append_assoc]
  refine h (hu hmore) fun m _ _ k hk => ?_
  obtain rfl : n = k := by simpa using hk
  exact hn

end Begun

/-- The text up to the content of the innermost open element, with room for all that are open. -/
inductive Around (o : ParseOptions) : List OpenElement → Bytes → Prop
  | nil : Around o [] []
  | cons {e : OpenElement} {stack : List OpenElement} {s t u : Bytes} (haround : Around o stack s)
      (hbegun : Begun o.void e.before t) (htag : e.tag.Written u)
      (hroom : stack.length + Node.nestingAll e.before ≤ o.maxDepth) :
      Around o (e :: stack) (s ++ t ++ (u ++ Bytes.utf8 ">"))

/-- Closing an element nests its children one level deeper. -/
theorem nestingAll_close (e : OpenElement) (nodes : List Node) :
    Node.nestingAll (e.close nodes)
      = max (Node.nestingAll nodes + 1) (Node.nestingAll e.before) := by
  simp [OpenElement.close, Node.nestingAll, Node.nesting]

/-- Behind complete siblings, the void element that is open may end with them. -/
theorem Begun.unclosed {void : NameSet} {closer : Option Bytes} {e : OpenElement} {t u v : Bytes}
    {nodes : List Node} (h : Begun void e.before t) (htag : e.tag.Written u)
    (hvoid : e.tag.name ∈ void) (hcloser : closer ≠ some e.tag.name)
    (hnodes : Document.Written void closer nodes.reverse v) :
    Document.Written void closer (e.close nodes).reverse (t ++ (u ++ Bytes.utf8 ">" ++ v)) := by
  rw [OpenElement.close, List.reverse_cons]
  exact h (.unclosed htag hvoid hcloser hnodes) (by simp [Node.isText])

/-- At the end of the text, what has been read is a document. -/
theorem closeAll_written {stack : List OpenElement} {s : Bytes} (haround : Around o stack s) :
    ∀ {nodes : List Node} {t : Bytes} {d : List Node},
      Document.Written o.void none nodes.reverse t →
      stack.length + Node.nestingAll nodes ≤ o.maxDepth →
      closeAll o.void nodes stack = .ok d →
        Document.Written o.void none d.reverse (s ++ t) ∧ Node.nestingAll d ≤ o.maxDepth := by
  induction haround with
  | nil =>
    intro nodes t d hnodes hroom h
    obtain rfl : nodes = d := by simpa [closeAll] using h
    exact ⟨hnodes, by simpa using hroom⟩
  | @cons e stack s u v _ hbegun htag hbefore ih =>
    intro nodes t d hnodes hroom h
    by_cases hvoid : o.void.has e.tag.name = true
    · simp only [closeAll, hvoid, if_true] at h
      have hclosed := hbegun.unclosed htag (NameSet.has_iff.mp hvoid) (by simp) hnodes
      have := ih hclosed (by rw [nestingAll_close]; rw [List.length_cons] at hroom; omega) h
      simpa only [List.append_assoc] using this
    · simp [closeAll, hvoid] at h

/-- The text so far: up to the innermost open element, and the siblings read in it. -/
inductive Standing (o : ParseOptions) (nodes : List Node) (stack : List OpenElement) : Bytes → Prop
  | intro {s t : Bytes} (haround : Around o stack s) (hbegun : Begun o.void nodes t)
      (hroom : stack.length + Node.nestingAll nodes ≤ o.maxDepth) : Standing o nodes stack (s ++ t)

/-- Behind a closing tag, what has been read can be gone on with. -/
theorem closeTo_written {stack : List OpenElement} {s : Bytes} (haround : Around o stack s)
    {name w : Bytes} (hw : ∀ b ∈ w, Bytes.isBlank b = true) :
    ∀ {nodes nodes' : List Node} {stack' : List OpenElement} {t : Bytes},
      Document.Written o.void (some name) nodes.reverse t →
      stack.length + Node.nestingAll nodes ≤ o.maxDepth →
      closeTo o.void name nodes stack = .ok (nodes', stack') →
        Standing o nodes' stack' (s ++ t ++ (Bytes.utf8 "</" ++ name ++ w ++ Bytes.utf8 ">")) := by
  induction haround with
  | nil =>
    intro nodes nodes' stack' t _ _ h
    simp [closeTo] at h
  | @cons e stack s u v haround hbegun htag hbefore ih =>
    intro nodes nodes' stack' t hnodes hroom h
    rw [List.length_cons] at hroom
    by_cases hname : e.tag.name = name
    · simp only [closeTo, hname, if_true, Except.ok.injEq, Prod.mk.injEq] at h
      obtain ⟨rfl, rfl⟩ := h
      subst hname
      have hclosed : Begun o.void (e.close nodes) (u ++ (v ++ Bytes.utf8 ">" ++ t ++
          (Bytes.utf8 "</" ++ e.tag.name ++ w ++ Bytes.utf8 ">"))) :=
        hbegun.cons rfl fun hmore => .closed htag hnodes hw hmore
      have := Standing.intro haround hclosed (by rw [nestingAll_close]; omega)
      simpa only [List.append_assoc] using this
    · by_cases hvoid : o.void.has e.tag.name = true
      · simp only [closeTo, hname, hvoid, if_true, if_false] at h
        have hclosed := hbegun.unclosed htag (NameSet.has_iff.mp hvoid)
          (fun h => hname (Option.some.inj h).symm) hnodes
        have := ih hclosed (by rw [nestingAll_close]; omega) h
        simpa only [List.append_assoc] using this
      · simp [closeTo, hname, hvoid] at h

/-- The last node behind a closing tag is the element it ends. -/
theorem closeTo_head {void : NameSet} {name : Bytes} {nodes' : List Node}
    {stack' : List OpenElement} : ∀ {stack : List OpenElement} {nodes : List Node},
      closeTo void name nodes stack = .ok (nodes', stack') → ∀ n ∈ nodes'.head?, n.isText = false
  | [], nodes, h => by simp [closeTo] at h
  | e :: stack, nodes, h => by
    rw [closeTo] at h
    split at h
    · obtain ⟨rfl, -⟩ := by simpa using h
      simp [OpenElement.close, Node.isText]
    · split at h
      · exact closeTo_head h
      · cases h

/-- How far a document has been read: the builder stands for the text so far, and `rest` comes
next. -/
inductive Progress (o : ParseOptions) : Token.Mode → Builder → Bytes → Bytes → Prop
  | content {nodes : List Node} {stack : List OpenElement} {s rest : Bytes}
      (hstand : Standing o nodes stack s)
      (hnext : ∀ n ∈ nodes.head?, n.isText = true → ∀ b ∈ rest.head?, b = '<'.toUInt8) :
      Progress o .content ⟨nodes, stack, none⟩ s rest
  | tag {start : Nat} {nodes : List Node} {stack : List OpenElement} {d : Draft} {s u rest : Bytes}
      (hstand : Standing o nodes stack s) (hname : d.name.IsName)
      (has : Attribute.AllWritten d.attributes.reverse u)
      (hgap : ∀ b ∈ u.head?, Bytes.isBlank b = true) (hkey : d.key = none)
      (hstop : u = [] → rest.Stops isNamePart) :
      Progress o (.tag start) ⟨nodes, stack, some d⟩ (s ++ (Bytes.utf8 "<" ++ d.name ++ u)) rest
  | value {start : Nat} {nodes : List Node} {stack : List OpenElement} {d : Draft}
      {s u w key rest : Bytes} (hstand : Standing o nodes stack s) (hname : d.name.IsName)
      (has : Attribute.AllWritten d.attributes.reverse u)
      (hgap : ∀ b ∈ (u ++ (w ++ key)).head?, Bytes.isBlank b = true)
      (hw : ∀ b ∈ w, Bytes.isBlank b = true) (hkey : d.key = some key) (hk : key.IsName) :
      Progress o (.value start) ⟨nodes, stack, some d⟩
        (s ++ (Bytes.utf8 "<" ++ d.name ++ (u ++ (w ++ key)))) rest

/-- **A step keeps the builder in line with the text.** -/
theorem Progress.step {m m' : Token.Mode} {b b' : Builder} {s u rest : Bytes} {pos : Nat}
    {t : Token} (h : Progress o m b s (u ++ rest)) (hreads : Token.Reads pos m u rest t m')
    (htake : take o src b t = .ok b') : Progress o m' b' (s ++ u) rest := by
  cases hreads with
  | text hne hraw hrest =>
    obtain @⟨nodes, stack, _, _, ⟨haround, hbegun, hroom⟩, hnext⟩ := h
    obtain rfl : _ = b' := by simpa [take, takeInContent] using htake
    -- Text goes on up to the next tag, so no text comes right before it.
    have hlast : ∀ n ∈ nodes.head?, n.isText = false := by
      intro n hn
      by_contra ht
      obtain ⟨b, r, rfl⟩ := List.exists_cons_of_ne_nil hne
      have := hnext n hn (by simpa using ht) b rfl
      exact hraw (this ▸ List.mem_cons_self)
    rw [List.append_assoc]
    exact .content (.intro haround (hbegun.text hne hraw hlast) hroom) fun _ _ _ => hrest
  | comment hbody =>
    obtain @⟨nodes, stack, _, _, ⟨haround, hbegun, hroom⟩, -⟩ := h
    obtain rfl : _ = b' := by simpa [take, takeInContent] using htake
    rw [List.append_assoc]
    exact .content (.intro haround (hbegun.cons rfl fun hmore => .comment hbody hmore) hroom)
      (by simp [Node.isText])
  | @closeTag name w _ hname hw =>
    obtain @⟨nodes, stack, _, _, ⟨haround, hbegun, hroom⟩, -⟩ := h
    simp only [take, takeInContent, takeCloseTag] at htake
    split at htake
    · next nodes' stack' hclose =>
      obtain rfl := Except.ok.inj htake
      refine .content (closeTo_written haround hw (hbegun.written _) hroom hclose) fun n hn ht => ?_
      rw [closeTo_head hclose n hn] at ht
      cases ht
    · cases htake
  | @openTag name _ hname hrest =>
    obtain @⟨nodes, stack, _, _, hstand, -⟩ := h
    obtain rfl : _ = b' := by simpa [take, takeInContent] using htake
    have : Progress o (.tag pos) ⟨nodes, stack, some ⟨name, pos, [], none⟩⟩
        (s ++ (Bytes.utf8 "<" ++ name ++ [])) rest :=
      .tag hstand hname .nil (by simp) rfl fun _ => hrest
    rwa [List.append_nil] at this
  | @key start w name _ hw hname hrest =>
    obtain _ | @⟨_, nodes, stack, d, s, v, _, hstand, hdname, has, hgap, hkey, hstop⟩ := h
    obtain rfl : _ = b' := by simpa [take, takeInTag, hkey] using htake
    rw [List.append_assoc, List.append_assoc _ v]
    refine .value hstand hdname has ?_ hw rfl hname
    -- A key that follows the name of the element directly would be a part of that name.
    cases v with
    | cons b v => exact hgap
    | nil =>
      cases w with
      | cons b w => simpa using hw b List.mem_cons_self
      | nil => exact absurd (hstop rfl) (hname.not_stops rest)
  | @tagEnd start w _ hw =>
    obtain _ | @⟨_, nodes, stack, d, s, v, _, hstand, hdname, has, hgap, hkey, -⟩ := h
    obtain ⟨haround, hbegun, hroom⟩ := hstand
    have htag := StartTag.Written.intro hdname has hgap hw
    simp only [take, takeInTag, hkey, takeTagEnd] at htake
    split at htake
    · next hlt =>
      obtain rfl := Except.ok.inj htake
      have haround' := Around.cons (e := ⟨_, d.offset, nodes⟩) haround hbegun htag hroom
      refine .content ?_ (by simp)
      simpa only [List.append_assoc, List.append_nil] using Standing.intro haround' begun_nil hlt
    · cases htake
  | @selfClose start w _ hw =>
    obtain _ | @⟨_, nodes, stack, d, s, v, _, hstand, hdname, has, hgap, hkey, -⟩ := h
    obtain ⟨haround, hbegun, hroom⟩ := hstand
    have htag := StartTag.Written.intro hdname has hgap hw
    obtain rfl : _ = b' := by simpa [take, takeInTag, hkey] using htake
    refine .content ?_ (by simp [Node.isText])
    simpa only [List.append_assoc] using
      Standing.intro haround (hbegun.cons rfl fun hmore => .selfClosing htag hmore) hroom
  | @value start w w' value _ hw hw' hvalue =>
    obtain _ | _ | @⟨_, nodes, stack, d, s, v, u, key, _, hstand, hdname, has, hgap, hu, hkey, hk⟩
      := h
    obtain rfl : _ = b' := by simpa [take, takeInTag, hkey] using htake
    generalize hx : w ++ Bytes.utf8 "=" ++ w' ++ Bytes.utf8 "\"" ++ value ++ Bytes.utf8 "\"" = x
    have hall : Attribute.AllWritten (⟨key, value⟩ :: d.attributes).reverse
        (v ++ (u ++ key) ++ x) := by
      rw [← hx]
      simpa only [List.reverse_cons, List.append_assoc, List.append_nil] using
        has.append (.cons hu (.intro hk hw hw' hvalue) .nil)
    have hne : v ++ (u ++ key) ≠ [] := by simp [Bytes.IsWord.ne_nil hk]
    have hgap' : ∀ b ∈ (v ++ (u ++ key) ++ x).head?, Bytes.isBlank b = true := by
      rwa [List.head?_append_of_ne_nil _ hne]
    rw [List.append_assoc, List.append_assoc _ (v ++ (u ++ key))]
    exact .tag hstand hdname hall hgap' rfl fun h => absurd (List.append_eq_nil_iff.mp h).1 hne

/-- A fault that was scanned is reported as it is. -/
theorem take_fault {b : Builder} {t : Token} {f : Fault} (h : t.kind = .fault f) :
    take o src b t = .error (failure src b.stack t.pos 1 f) := by
  unfold take
  split
  · rw [takeInContent, h]
  · rw [takeInTag, h]

/-- The end of the text completes a document that can be written. -/
theorem Progress.finish {b b' : Builder} {s : Bytes} {pos : Nat} (h : Progress o .content b s [])
    (htake : take o src b ⟨.finish, [], pos⟩ = .ok b') :
    Document.Written o.void none b'.nodes.reverse s ∧ Node.nestingAll b'.nodes ≤ o.maxDepth := by
  obtain @⟨nodes, stack, _, _, ⟨haround, hbegun, hroom⟩, -⟩ := h
  simp only [take, takeInContent, takeFinish] at htake
  split at htake
  · next d hclose =>
    obtain rfl := Except.ok.inj htake
    exact closeAll_written haround (hbegun.written none) hroom hclose
  · cases htake

/-- **What is read can be written.** -/
theorem written_of_run {m : Token.Mode} {c : Cursor} {b b' : Builder} {s : Bytes}
    (h : Progress o m b s c.rest) (hrun : run o src m c b = .ok b') :
    Document.Written o.void none b'.nodes.reverse (s ++ c.rest) ∧
      Node.nestingAll b'.nodes ≤ o.maxDepth := by
  match hstep : Token.step m c with
  | .halt t =>
    rw [run_of_halt hstep] at hrun
    obtain ⟨rfl, hend, rfl⟩ | ⟨f, hf⟩ := Token.finish_or_fault_of_halt hstep
    · rw [hend] at h
      rw [hend, List.append_nil]
      exact h.finish hrun
    · rw [take_fault hf] at hrun
      cases hrun
  | .emit t m' c' =>
    obtain ⟨u, hrest, hpos, hreads⟩ := Token.step_eq_emit_iff.mp hstep
    have hlt := Token.length_lt_of_step hstep
    rw [run_of_emit hstep] at hrun
    obtain ⟨b₁, htake, hrun⟩ := Except.bind_eq_ok_iff.mp hrun
    rw [hrest] at h ⊢
    rw [← List.append_assoc]
    exact written_of_run (h.step hreads htake) hrun
termination_by c.rest.length

end Builder

namespace Document

theorem parse_eq_run (o : ParseOptions) (src : Bytes) :
    parse o src = (Builder.run o src .content ⟨0, src⟩ {}).map fun b => b.nodes.reverse := rfl

variable {o : ParseOptions} {src : Bytes} {d : Document}

/-- A document that is read is written down. -/
theorem written_of_parse (h : parse o src = .ok d) :
    Written o.void none d src ∧ Node.nestingAll d ≤ o.maxDepth := by
  rw [parse_eq_run] at h
  obtain ⟨b, hrun, rfl⟩ := Except.map_eq_ok_iff.mp h
  have hstart : Builder.Progress o .content {} [] src :=
    .content (.intro .nil Builder.begun_nil (Nat.zero_le _)) (by simp)
  rw [Node.nestingAll_reverse]
  exact Builder.written_of_run hstart hrun

/-- A document that is written down is read, if it is not too deep. -/
theorem parse_of_written (h : Written o.void none d src) (hroom : Node.nestingAll d ≤ o.maxDepth) :
    parse o src = .ok d := by
  obtain ⟨b, hdraft, hrun, hcloses, -⟩ :=
    @Builder.run_written o src _ _ _ h [] (by simp) 0 [] [] (by simpa using hroom)
  have hhalt : Token.step .content ⟨0 + src.length, []⟩ = .halt ⟨.finish, [], 0 + src.length⟩ := rfl
  have hclose : Builder.closeAll o.void b.nodes b.stack = .ok d.reverse := by
    rw [hcloses]
    simp [Builder.closeAll]
  have htake : Builder.take o src b ⟨.finish, [], 0 + src.length⟩ = .ok ⟨d.reverse, [], none⟩ := by
    simp only [Builder.take, hdraft, Builder.takeInContent, Builder.takeFinish, hclose]
  rw [List.append_nil] at hrun
  rw [parse_eq_run, hrun, Builder.run_of_halt hhalt, htake]
  simp [Except.map]

/-- **Reading accepts exactly what can be written.**  A text is read as the document `d` just if it
is a way to write `d`, and `d` is not nested more deeply than allowed. -/
theorem parse_eq_ok_iff (o : ParseOptions) (src : Bytes) (d : Document) :
    parse o src = .ok d ↔ Written o.void none d src ∧ Node.nestingAll d ≤ o.maxDepth :=
  ⟨written_of_parse, fun h => parse_of_written h.1 h.2⟩

end Document

end LayoutMarkup

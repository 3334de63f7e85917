import LayoutMarkup.Text.Bytes

/-!
# NameSet — finite sets of names

A set of names is the strictly ascending list of its members, in byte order, so the members come out
sorted and without repetition.  Every operation is pinned down by its members: `mem_insert`,
`mem_ofList`, `mem_union`.
-/

namespace LayoutMarkup

/-- A finite set of names. -/
structure NameSet where
  /-- The members in ascending byte order. -/
  names : List Bytes
  ascending : names.Pairwise (· < ·)
  deriving DecidableEq, Repr

namespace NameSet

/-- Puts a name at its place in an ascending list, unless it is there already. -/
def place (n : Bytes) : List Bytes → List Bytes
  | [] => [n]
  | m :: ms => if n < m then n :: m :: ms else if n = m then m :: ms else m :: place n ms

@[simp] theorem mem_place {n x : Bytes} : ∀ {l : List Bytes}, x ∈ place n l ↔ x = n ∨ x ∈ l
  | [] => by simp [place]
  | m :: ms => by
    unfold place
    split
    · simp
    · split
      · next h => simp [h]
      · simp [mem_place (l := ms), or_left_comm]

theorem pairwise_place (n : Bytes) :
    ∀ {l : List Bytes}, l.Pairwise (· < ·) → (place n l).Pairwise (· < ·)
  | [], _ => by simp [place]
  | m :: ms, h => by
    obtain ⟨hm, hms⟩ := List.pairwise_cons.mp h
    unfold place
    split
    · next hlt =>
      exact List.pairwise_cons.mpr
        ⟨fun x hx => by
          rcases List.mem_cons.mp hx with rfl | hx
          · exact hlt
          · exact List.lt_trans hlt (hm x hx), h⟩
    · split
      · exact h
      · next hlt hne =>
        refine List.pairwise_cons.mpr ⟨fun x hx => ?_, pairwise_place n hms⟩
        rcases mem_place.mp hx with rfl | hx
        · rcases List.le_iff_lt_or_eq.mp (List.not_lt.mp hlt) with h' | h'
          · exact h'
          · exact absurd h'.symm hne
        · exact hm x hx

/-- The set without members. -/
def empty : NameSet := ⟨[], .nil⟩

/-- The set with one more member. -/
def insert (s : NameSet) (n : Bytes) : NameSet := ⟨place n s.names, pairwise_place n s.ascending⟩

/-- The set of the names in a list. -/
def ofList (l : List Bytes) : NameSet := l.foldl insert empty

/-- The members of either set. -/
def union (s t : NameSet) : NameSet := t.names.foldl insert s

/-- Is the name a member? -/
def has (s : NameSet) (n : Bytes) : Bool := s.names.contains n

/-- The number of members. -/
def size (s : NameSet) : Nat := s.names.length

instance : Inhabited NameSet := ⟨empty⟩

instance : Membership Bytes NameSet := ⟨fun s n => n ∈ s.names⟩

/-! ## Members -/

@[simp] theorem has_iff {s : NameSet} {n : Bytes} : s.has n = true ↔ n ∈ s := by
  simp [has, Membership.mem]

@[simp] theorem not_mem_empty {n : Bytes} : ¬ n ∈ empty := List.not_mem_nil

@[simp] theorem mem_insert {s : NameSet} {n x : Bytes} : x ∈ s.insert n ↔ x = n ∨ x ∈ s := mem_place

theorem mem_foldl_insert {x : Bytes} :
    ∀ {l : List Bytes} {s : NameSet}, x ∈ l.foldl insert s ↔ x ∈ l ∨ x ∈ s
  | [], s => by simp
  | n :: l, s => by simp [mem_foldl_insert (l := l), or_assoc, or_left_comm]

@[simp] theorem mem_ofList {l : List Bytes} {x : Bytes} : x ∈ ofList l ↔ x ∈ l := by
  simp [ofList, mem_foldl_insert]

@[simp] theorem mem_union {s t : NameSet} {x : Bytes} : x ∈ s.union t ↔ x ∈ s ∨ x ∈ t := by
  rw [union, mem_foldl_insert, or_comm]
  rfl

end NameSet

end LayoutMarkup

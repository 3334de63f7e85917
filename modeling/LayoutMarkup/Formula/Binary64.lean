/-!
# Formula/Binary64 — decimal fractions as binary ones

A non-negative binary fraction of 64 bits is a multiple of 2⁻¹⁰⁷⁴ below 2¹⁰²⁴ whose significant bits
are at most 53, and is held as that multiple, so equal values are equal.  A decimal fraction becomes
the nearest of them; a half-way case goes to the neighbour whose last significant bit is 0.
-/

namespace LayoutMarkup

/-- A non-negative binary fraction of 64 bits. -/
structure Binary64 where
  /-- The value in units of 2⁻¹⁰⁷⁴. -/
  units : Nat
  deriving DecidableEq, Repr

namespace Binary64

/-- The integer nearest to `num / den`; a half goes to the even one. -/
def roundDiv (num den : Nat) : Nat :=
  let q := num / den
  let r := num % den
  if 2 * r < den then q else if den < 2 * r then q + 1 else q + q % 2

/-- The binary fraction nearest to `num / den` units, none if it is too large. -/
def nearest? (num den : Nat) : Option Binary64 :=
  let excess := (num / den).log2 + 1 - 53
  let unit := Nat.pow 2 excess
  let units := roundDiv num (den * unit) * unit
  if units < Nat.pow 2 2098 then some ⟨units⟩ else none

/-- The binary fraction nearest to `digits · 10 ^ exponent`, none if it is too large.  From 10³¹⁰ on
it is, and below 10⁻³³⁰ it is zero; powers of ten are computed only in between. -/
def ofDecimal? (digits : Nat) (exponent : Int) : Option Binary64 :=
  let magnitude : Int := (Nat.toDigits 10 digits).length + exponent
  if digits = 0 ∨ magnitude < -330 then some ⟨0⟩
  else if 310 < magnitude then none
  else nearest? (digits * Nat.pow 10 exponent.toNat * Nat.pow 2 1074) (Nat.pow 10 (-exponent).toNat)

end Binary64

end LayoutMarkup

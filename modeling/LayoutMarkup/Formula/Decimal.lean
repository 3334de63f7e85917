import LayoutMarkup.Formula.Binary64

/-!
# Formula/Decimal — decimal fractions of any length

A decimal fraction is a sequence of digits, the place of the point among them, and a power of ten.
Its value is a binary fraction, found in two steps.  The nineteen leading digits decide it if what
follows them cannot change the nearest binary fraction: then it is that one.  Otherwise all digits
count, and the point stands behind the 800th of them at the latest.
-/

namespace LayoutMarkup

/-- A decimal fraction as it is written: `0.d₁d₂… · 10 ^ (point + exponent)`. -/
structure Decimal where
  /-- The digits, from the first that is not 0. -/
  digits : List Nat
  /-- How many of the digits stand before the point.  Below 0, as many zeros stand between the point
  and the first digit. -/
  point : Int
  /-- The exponent behind the digits. -/
  exponent : Int
  deriving DecidableEq, Repr

namespace Decimal

/-- The number that a sequence of digits writes. -/
def natOfDigits (digits : List Nat) : Nat := digits.foldl (fun n d => n * 10 + d) 0

/-- The decimal fraction with the given digits before and behind the point. -/
def ofParts (whole fraction : List Nat) (exponent : Int) : Decimal :=
  let zeros := (whole ++ fraction).takeWhile (· == 0)
  ⟨(whole ++ fraction).drop zeros.length, whole.length - zeros.length, exponent⟩

/-- The value that the nineteen leading digits decide.  The fraction lies between the number they
write and the next one in their last place, so it is decided if these two have the same nearest
binary fraction. -/
def leading? (d : Decimal) : Option Binary64 :=
  let lead := d.digits.take 19
  let place := d.point + d.exponent - lead.length
  let low := Binary64.ofDecimal? (natOfDigits lead) place
  if (d.digits.drop 19).all (· == 0) then low
  else if Binary64.ofDecimal? (natOfDigits lead + 1) place = low then low
  else none

/-- The value of all digits, with the point behind the 800th of them at the latest. -/
def full? (d : Decimal) : Option Binary64 :=
  Binary64.ofDecimal? (natOfDigits d.digits) (min d.point 800 + d.exponent - d.digits.length)

/-- The value of a decimal fraction, none if it is too large. -/
def value? (d : Decimal) : Option Binary64 :=
  match d.leading? with
  | some x => some x
  | none => d.full?

end Decimal

end LayoutMarkup

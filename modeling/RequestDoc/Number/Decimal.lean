import RequestDoc.Number.Binary64
import RequestDoc.Number.Natural

/-!
Decimal numbers and their nearest double-precision numbers. A decimal is a natural number of digits
times a power of ten, and it is read exactly: the nearest number is taken, and of two equally near
ones the one with the even pattern.
-/

namespace RequestDoc

/-- The number `digits` times ten to the power `exponent`. -/
structure Decimal where
  digits : Nat
  exponent : Int
  deriving DecidableEq

namespace Decimal

/-- Ten to this power lies past every finite number, and its inverse is nearer to zero than to any other
number. -/
def reach : Nat := 330

/-- The magnitude nearest to a decimal. What lies beyond the reach on either side is infinite or zero and
does not need its power of ten. -/
def magnitude (d : Decimal) : Nat :=
  let scale : Int := Natural.digitCount d.digits + d.exponent
  if d.digits = 0 then 0
  else if (reach : Int) < scale then Binary64.infinity
  else if scale < -(reach : Int) then 0
  else
    Binary64.nearest (d.digits * Nat.pow 10 d.exponent.toNat * Nat.pow 2 Binary64.places)
      (Nat.pow 10 (-d.exponent).toNat)

theorem magnitude_le (d : Decimal) : d.magnitude ≤ Binary64.infinity := by
  unfold magnitude
  simp only
  split
  · exact Nat.zero_le _
  · split
    · exact Nat.le_refl _
    · split
      · exact Nat.zero_le _
      · exact Binary64.nearest_le _ _

/-- The number nearest to a decimal of the given sign. A zero keeps its sign. -/
def toBinary64 (negative : Bool) (d : Decimal) : Binary64 where
  negative := negative
  magnitude := d.magnitude
  magnitude_lt := Nat.lt_of_le_of_lt d.magnitude_le Binary64.infinity_lt

end Decimal

end RequestDoc

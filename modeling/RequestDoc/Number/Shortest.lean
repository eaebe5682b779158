import RequestDoc.Number.Numeral

/-!
Printing numbers. A finite number is printed with the fewest digits that read back as the same number,
and of several such decimals the nearest one is taken; of two equally near ones it is the greater one.
The digits are laid out without an exponent, and a fraction ends with a digit other than zero.
-/

namespace RequestDoc

namespace Binary64

/-- The decimal that is equal to a finite magnitude, which is a natural number times a power of two. A
negative power of two is a power of five over the same power of ten. -/
def exact (magnitude : Nat) : Decimal :=
  let (factor, power) := parts magnitude
  ⟨factor * Nat.pow 5 (places - power) * Nat.pow 2 (power - places), -((places - power : Nat) : Int)⟩

/-- The two neighbours of `point` among the multiples of `step`, counted in steps. The nearer one comes
first, and the greater one if both are equally near. -/
def neighbours (point step : Nat) : List Nat :=
  let low := point / step
  if 2 * (point % step) < step then [low, low + 1] else [low + 1, low]

/-- A neighbour of the decimal `d` among those with `dropped` digits less that reads back as
`magnitude`. -/
def shortened? (magnitude : Nat) (d : Decimal) (dropped : Nat) : Option Decimal :=
  ((neighbours d.digits (Nat.pow 10 dropped)).map fun digits => ⟨digits, d.exponent + dropped⟩).find?
    fun d => d.magnitude = magnitude

/-- The shortest decimal that reads back as a finite magnitude. -/
def shortest (magnitude : Nat) : Decimal :=
  let d := exact magnitude
  let size := Natural.digitCount d.digits
  ((List.range size).findSome? fun i => shortened? magnitude d (size - 1 - i)).getD d

end Binary64

/-- Drops the zeros at the end of a fraction. -/
def Numeral.trimZeros (digits : List Char) : List Char :=
  (digits.reverse.dropWhile (· = '0')).reverse

/-- A decimal laid out with a point at its place and without an exponent. -/
def Decimal.numeral (negative : Bool) (d : Decimal) : Numeral :=
  let places := (-d.exponent).toNat
  let scaled := d.digits * Nat.pow 10 d.exponent.toNat
  { negative
    whole := Nat.toDigits 10 (scaled / Nat.pow 10 places)
    fraction := if places = 0 then []
      else Numeral.trimZeros ((Nat.toDigits 10 (scaled % Nat.pow 10 places)).leftpad places '0')
    exponent := none }

namespace Binary64

/-- The numeral that a finite number is printed as. -/
def numeral (x : Binary64) : Numeral :=
  if x.magnitude = 0 then ⟨x.negative, ['0'], [], none⟩
  else (shortest x.magnitude).numeral x.negative

/-- The printed characters of a number. -/
def chars (x : Binary64) : List Char :=
  if x.isNaN then ['N', 'a', 'N']
  else if x.isFinite then x.numeral.text
  else (if x.negative then ['-'] else []) ++ ['i', 'n', 'f']

end Binary64

end RequestDoc

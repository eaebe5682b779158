/-!
Double-precision binary numbers. A number is a sign and a magnitude, where the magnitude is the
number's pattern of 63 bits read as a natural number. Up to infinity a greater magnitude is a greater
number, so the numbers next to each other have magnitudes next to each other. The magnitudes past
infinity are not numbers.
-/

namespace RequestDoc

/-- The sign's bit in a pattern. -/
def Binary64.signBit : Nat := 0x8000000000000000

/-- A double-precision number, given by its sign and the other 63 bits of its pattern. -/
structure Binary64 where
  negative : Bool
  magnitude : Nat
  magnitude_lt : magnitude < Binary64.signBit
  deriving DecidableEq

namespace Binary64

/-- The bit above the fraction. It counts in the factor of a normal number without being written, and in a
pattern it is the lowest bit of the exponent. -/
def leadingBit : Nat := 0x10000000000000

/-- The magnitude of infinity: all exponent bits set, all others clear. -/
def infinity : Nat := 2047 * leadingBit

/-- The number with a pattern of 64 bits. -/
def ofBits (bits : Nat) : Binary64 where
  negative := bits.testBit 63
  magnitude := bits % signBit
  magnitude_lt := Nat.mod_lt _ (by decide)

/-- The pattern of 64 bits of a number. -/
def bits (x : Binary64) : Nat :=
  (if x.negative then signBit else 0) + x.magnitude

/-- The pattern stands for no number. -/
def isNaN (x : Binary64) : Bool :=
  infinity < x.magnitude

/-- The number is neither infinite nor missing. -/
def isFinite (x : Binary64) : Bool :=
  x.magnitude < infinity

/-- The number is infinite. -/
def isInfinite (x : Binary64) : Bool :=
  x.magnitude == infinity

/-- Numerical equality: the two zeros are equal, and what is not a number equals nothing. -/
def equal (x y : Binary64) : Bool :=
  !x.isNaN && !y.isNaN && (x.magnitude == y.magnitude && (x.negative == y.negative || x.magnitude == 0))

/-- The least positive number is the unit of which all finite numbers are multiples. Two to this power units
make one. -/
def places : Nat := 1074

/-- A finite magnitude as a factor and a power of two, of which it is the product when the least positive
number is the unit. -/
def parts (magnitude : Nat) : Nat × Nat :=
  if magnitude < leadingBit then (magnitude, 0)
  else (leadingBit + magnitude % leadingBit, magnitude / leadingBit - 1)

/-- A finite magnitude as a multiple of the least positive number. -/
def units (magnitude : Nat) : Nat :=
  (parts magnitude).1 * Nat.pow 2 (parts magnitude).2

/-- The quotient as a natural number, the nearest one, and the even one of two equally near. -/
def roundDiv (num den : Nat) : Nat :=
  let low := num / den
  let rest := num % den
  if 2 * rest < den then low
  else if 2 * rest = den then low + low % 2
  else low + 1

/-- The magnitude nearest to `num / den` units. The quotient is rounded to the 53 leading bits of a
normal number, and to whole units below the normal numbers. What is rounded past the greatest finite
number is infinite. -/
def nearest (num den : Nat) : Nat :=
  let dropped := (num / den).log2 - 52
  min (dropped * leadingBit + roundDiv num (den * Nat.pow 2 dropped)) infinity

theorem nearest_le (num den : Nat) : nearest num den ≤ infinity :=
  Nat.min_le_right _ _

/-- A number is finite unless it is infinite or missing. -/
theorem isFinite_iff {x : Binary64} : x.isFinite = true ↔ x.isInfinite = false ∧ x.isNaN = false := by
  simp only [isFinite, isInfinite, isNaN, decide_eq_true_eq, decide_eq_false_iff_not, beq_eq_false_iff_ne]
  omega

/-- The magnitude of infinity is the pattern of a number. -/
theorem infinity_lt : infinity < signBit := by decide

end Binary64

end RequestDoc

import RequestDoc.Number.Decimal

/-!
Numerals: how numbers are written. A numeral is an optional minus sign, a whole part without leading
zeros, an optional fraction and an optional exponent. Scanning takes the longest numeral at the start
of a text; a point or an exponent mark that no digit follows is left in the text. All digits of the whole
part and the fraction count, and those of an exponent until it is great enough.
-/

namespace RequestDoc

/-- The exponent of a numeral as it is written: its mark, its sign if it has one, and its digits. -/
structure Numeral.Exponent where
  mark : Char
  sign : Option Char
  digits : List Char
  deriving DecidableEq

/-- A numeral as it is written. A missing fraction has no digits. -/
structure Numeral where
  negative : Bool
  whole : List Char
  fraction : List Char
  exponent : Option Numeral.Exponent
  deriving DecidableEq

namespace Numeral

/-! ### The text of a numeral -/

/-- The text of an exponent. -/
def Exponent.text (e : Exponent) : List Char :=
  e.mark :: (e.sign.toList ++ e.digits)

/-- The text of a fraction with its point. -/
def fractionText (digits : List Char) : List Char :=
  if digits.isEmpty then [] else '.' :: digits

/-- The text of a numeral. -/
def text (n : Numeral) : List Char :=
  (if n.negative then ['-'] else []) ++ n.whole ++ fractionText n.fraction ++
    (n.exponent.map Exponent.text).getD []

/-! ### The number that a numeral writes -/

/-- The size of an exponent that is great enough. Digits after those that reach it do not count. -/
def Exponent.enough : Nat := 65536

/-- The size of an exponent with one more digit. -/
def Exponent.append (size : Nat) (digit : Char) : Nat :=
  if size < enough then 10 * size + Natural.ofDigit digit else size

/-- The size of an exponent: the number that its digits write, up to the digit with which it is great
enough. -/
def Exponent.size (e : Exponent) : Nat :=
  e.digits.foldl append 0

/-- The power of ten that an exponent stands for. -/
def Exponent.value (e : Exponent) : Int :=
  if e.sign = some '-' then -(e.size : Int) else e.size

/-- The decimal that a numeral writes, without its sign. -/
def decimal (n : Numeral) : Decimal where
  digits := Natural.ofDigits (n.whole ++ n.fraction)
  exponent := (n.exponent.map Exponent.value).getD 0 - (n.fraction.length : Int)

/-- The number that a numeral writes. -/
def value (n : Numeral) : Binary64 :=
  n.decimal.toBinary64 n.negative

/-! ### The longest numeral of a text -/

/-- Splits a leading minus sign off. -/
def scanMinus : List Char → Bool × List Char
  | '-' :: rest => (true, rest)
  | cs => (false, cs)

/-- Splits a whole part off: a single zero, or digits that start with another digit. -/
def scanWhole? : List Char → Option (List Char × List Char)
  | '0' :: rest => some (['0'], rest)
  | cs =>
    let digits := cs.takeWhile Char.isDigit
    if digits.isEmpty then none else some (digits, cs.dropWhile Char.isDigit)

/-- Splits the digits of a fraction off, if a point and a digit lead the text. -/
def scanFraction (cs : List Char) : List Char × List Char :=
  match cs with
  | '.' :: rest =>
    let digits := rest.takeWhile Char.isDigit
    if digits.isEmpty then ([], cs) else (digits, rest.dropWhile Char.isDigit)
  | _ => ([], cs)

/-- Splits the sign of an exponent off. -/
def scanSign : List Char → Option Char × List Char
  | '+' :: rest => (some '+', rest)
  | '-' :: rest => (some '-', rest)
  | cs => (none, cs)

/-- Splits an exponent off, if a mark and, after an optional sign, a digit lead the text. -/
def scanExponent (cs : List Char) : Option Exponent × List Char :=
  match cs with
  | c :: rest =>
    if c = 'e' ∨ c = 'E' then
      let (sign, rest) := scanSign rest
      let digits := rest.takeWhile Char.isDigit
      if digits.isEmpty then (none, cs) else (some ⟨c, sign, digits⟩, rest.dropWhile Char.isDigit)
    else (none, cs)
  | [] => (none, cs)

/-- Splits the longest numeral off a text. -/
def scan? (cs : List Char) : Option (Numeral × List Char) := do
  let (negative, cs) := scanMinus cs
  let (whole, cs) ← scanWhole? cs
  let (fraction, cs) := scanFraction cs
  let (exponent, cs) := scanExponent cs
  return (⟨negative, whole, fraction, exponent⟩, cs)

end Numeral

end RequestDoc

import RequestDoc.Proofs.Text.Bytes

/-!
The bytes of numerals. A numeral is measured on the bytes of a text: from the first byte on, each part is counted as
long as its bytes go on. It has as many bytes as the numeral that scanning the characters finds.
-/

namespace RequestDoc.Numeral

/-! ### Measuring -/

/-- How many bytes in front are digits. -/
def digitCount (bytes : List UInt8) : Nat :=
  (bytes.takeWhile isDigitByte).length

/-- The size of a minus sign in front. -/
def minusSize (bytes : List UInt8) : Nat :=
  if bytes.head?.any (· == byteOf '-') then 1 else 0

/-- The size of a whole part in front. -/
def wholeSize? (bytes : List UInt8) : Option Nat :=
  if bytes.head?.any (· == byteOf '0') then some 1
  else if bytes.head?.any isDigitByte then some (digitCount bytes)
  else none

/-- The size of a fraction in front, with its point. -/
def fractionSize (bytes : List UInt8) : Nat :=
  if bytes.head?.any (· == byteOf '.') then
    let digits := digitCount (bytes.drop 1)
    if digits = 0 then 0 else 1 + digits
  else 0

/-- The size of the sign of an exponent in front. -/
def signSize (bytes : List UInt8) : Nat :=
  if bytes.head?.any (· == byteOf '+') || bytes.head?.any (· == byteOf '-') then 1 else 0

/-- The size of an exponent in front, with its mark. -/
def exponentSize (bytes : List UInt8) : Nat :=
  if bytes.head?.any (· == byteOf 'e') || bytes.head?.any (· == byteOf 'E') then
    let sign := signSize (bytes.drop 1)
    let digits := digitCount (bytes.drop (1 + sign))
    if digits = 0 then 0 else 1 + sign + digits
  else 0

/-- The size of the longest numeral in front. -/
def size? (bytes : List UInt8) : Option Nat := do
  let minus := minusSize bytes
  let whole ← wholeSize? (bytes.drop minus)
  let fraction := fractionSize (bytes.drop (minus + whole))
  let exponent := exponentSize (bytes.drop (minus + whole + fraction))
  return minus + whole + fraction + exponent

/-! ### Parts of a numeral -/

theorem digitCount_encoded (cs : List Char) : digitCount (encoded cs) = (cs.takeWhile Char.isDigit).length :=
  encodes_digit.length_takeWhile cs

theorem head?_encoded {a : Char} (ha : a.toNat < 128) (cs : List Char) :
    (encoded cs).head?.any (· == byteOf a) = cs.head?.any (· == a) :=
  (encodes_byteOf ha).head? cs

theorem drop_encoded_cons {a : Char} (ha : a.toNat < 128) (cs : List Char) : (encoded (a :: cs)).drop 1 = encoded cs := by
  rw [encoded_cons, encodeChar_of_lt ha]
  rfl

theorem Digits.ascii {cs : List Char} (h : Digits cs) : Ascii cs :=
  fun c hc => encodes_digit.char_lt (h c hc)

theorem minusSize_encoded (cs : List Char) :
    minusSize (encoded cs) = (if (scanMinus cs).1 then ['-'] else []).length := by
  rw [minusSize, head?_encoded (by decide)]
  cases cs with
  | nil => rfl
  | cons c rest =>
    by_cases hc : c = '-'
    · subst hc
      rfl
    · simp [scanMinus, hc]

theorem wholeSize?_encoded (cs : List Char) : wholeSize? (encoded cs) = (scanWhole? cs).map (·.1.length) := by
  rw [wholeSize?, head?_encoded (by decide), encodes_digit.head?, digitCount_encoded]
  cases cs with
  | nil => rfl
  | cons c rest =>
    by_cases hc : c = '0'
    · subst hc
      rfl
    · by_cases hd : c.isDigit = true
      · simp [scanWhole?, hc, hd]
      · simp [scanWhole?, hc, hd]

theorem fractionSize_encoded (cs : List Char) :
    fractionSize (encoded cs) = (fractionText (scanFraction cs).1).length := by
  rw [fractionSize, head?_encoded (by decide)]
  cases cs with
  | nil => rfl
  | cons c rest =>
    by_cases hc : c = '.'
    · subst hc
      rw [drop_encoded_cons (by decide), digitCount_encoded]
      by_cases hd : rest.takeWhile Char.isDigit = []
      · simp [scanFraction, hd, fractionText]
      · simp [scanFraction, hd, fractionText, Nat.add_comm]
    · simp [scanFraction, hc, fractionText]

theorem signSize_encoded (cs : List Char) : signSize (encoded cs) = (scanSign cs).1.toList.length := by
  rw [signSize, head?_encoded (by decide), head?_encoded (by decide)]
  cases cs with
  | nil => rfl
  | cons c rest =>
    by_cases hplus : c = '+'
    · subst hplus
      rfl
    · by_cases hminus : c = '-'
      · subst hminus
        rfl
      · simp [scanSign, hplus, hminus]

theorem ascii_sign {sign : Option Char} (h : sign = none ∨ sign = some '+' ∨ sign = some '-') : Ascii sign.toList := by
  rcases h with rfl | rfl | rfl
  · exact Ascii.nil
  · exact Ascii.singleton (by decide)
  · exact Ascii.singleton (by decide)

theorem exponentSize_encoded (cs : List Char) :
    exponentSize (encoded cs) = (((scanExponent cs).1.map Exponent.text).getD []).length := by
  rw [exponentSize, head?_encoded (by decide), head?_encoded (by decide)]
  cases cs with
  | nil => rfl
  | cons c rest =>
    by_cases hmark : c = 'e' ∨ c = 'E'
    · have hlt : c.toNat < 128 := by rcases hmark with rfl | rfl <;> decide
      obtain ⟨hsign, hrest⟩ := scanSign_eq rest
      -- mark and sign are one byte each, so the digits start where scanning finds them
      have hdrop : (encoded (c :: rest)).drop (1 + (scanSign rest).1.toList.length) = encoded (scanSign rest).2 := by
        rw [← List.drop_drop, drop_encoded_cons hlt]
        conv => lhs; arg 2; rw [hrest]
        exact (ascii_sign hsign).drop_encoded _
      have hif : (Option.any (· == 'e') (c :: rest).head? || Option.any (· == 'E') (c :: rest).head?) = true := by
        simpa using hmark
      rw [if_pos hif, drop_encoded_cons hlt, signSize_encoded]
      simp only [hdrop, digitCount_encoded, scanExponent, if_pos hmark]
      by_cases hd : (scanSign rest).2.takeWhile Char.isDigit = []
      · simp [hd]
      · simp [hd, Exponent.text]
        omega
    · simp [scanExponent, hmark]

/-! ### Whole numerals -/

theorem ascii_minus (negative : Bool) : Ascii (if negative then ['-'] else []) := by
  cases negative with
  | true => exact Ascii.singleton (by decide)
  | false => exact Ascii.nil

theorem Whole.ascii {whole : List Char} (h : Whole whole) : Ascii whole := by
  cases h with
  | zero => exact Ascii.singleton (by decide)
  | digits _ hd => exact hd.ascii

theorem ascii_fraction {digits : List Char} (h : Digits digits) : Ascii (fractionText digits) := by
  unfold fractionText
  split
  · exact Ascii.nil
  · exact (Ascii.singleton (by decide)).append h.ascii

theorem Exponent.WellFormed.ascii {e : Exponent} (h : e.WellFormed) : Ascii e.text := by
  have hmark : Ascii [e.mark] := by
    rcases h.mark with hm | hm <;> rw [hm] <;> exact Ascii.singleton (by decide)
  exact hmark.append ((ascii_sign h.sign).append h.digits.ascii)

theorem WellFormed.ascii {n : Numeral} (h : n.WellFormed) : Ascii n.text := by
  have hexponent : Ascii ((n.exponent.map Exponent.text).getD []) := by
    cases he : n.exponent with
    | none => exact Ascii.nil
    | some e => exact (h.exponent e he).ascii
  exact (((ascii_minus n.negative).append h.whole.ascii).append (ascii_fraction h.fraction)).append hexponent

/-- A numeral is found in the bytes of a text as in its characters, and has as many bytes. -/
theorem size?_encoded (cs : List Char) : size? (encoded cs) = (scan? cs).map fun (n, _) => byteSize n.text := by
  have hminus : (encoded cs).drop (minusSize (encoded cs)) = encoded (scanMinus cs).2 := by
    rw [minusSize_encoded]
    conv => lhs; arg 2; rw [scanMinus_eq cs]
    exact (ascii_minus _).drop_encoded _
  cases hw : scanWhole? (scanMinus cs).2 with
  | none => simp only [size?, scan?, hminus, wholeSize?_encoded, hw, Option.map_none, Option.bind_eq_bind, Option.bind_none]
  | some r =>
    obtain ⟨whole, after⟩ := r
    obtain ⟨hwhole, hafter⟩ := scanWhole?_eq_some hw
    obtain ⟨hfraction, hrest⟩ := scanFraction_eq after
    have hscan : scan? cs = some (⟨(scanMinus cs).1, whole, (scanFraction after).1, (scanExponent (scanFraction after).2).1⟩,
        (scanExponent (scanFraction after).2).2) := by
      simp only [scan?, hw, Option.bind_eq_bind, Option.bind_some]
      rfl
    have hwholeDrop : (encoded cs).drop (minusSize (encoded cs) + whole.length) = encoded after := by
      rw [← List.drop_drop, hminus, hafter]
      exact hwhole.ascii.drop_encoded _
    have hfractionDrop : (encoded cs).drop (minusSize (encoded cs) + whole.length + fractionSize (encoded after)) =
        encoded (scanFraction after).2 := by
      rw [← List.drop_drop, hwholeDrop, fractionSize_encoded]
      conv => lhs; arg 2; rw [hrest]
      exact (ascii_fraction hfraction).drop_encoded _
    have hsize := (scan?_eq_some hscan).1.ascii.byteSize
    simp only [size?, hminus, wholeSize?_encoded, hw, Option.map_some, Option.bind_eq_bind, Option.bind_some, hwholeDrop,
      hfractionDrop, hscan, hsize]
    rw [minusSize_encoded, fractionSize_encoded, exponentSize_encoded]
    simp only [text, List.length_append]
    rfl

end RequestDoc.Numeral

import Mathlib.Computability.RegularExpressions
import RequestDoc.Number.Numeral.WellFormed

/-!
The regular expression of numerals. In the usual notation it is
`-?(0|[1-9][0-9]*)(\.[0-9]+)?([eE][+-]?[0-9]+)?`. It matches exactly the texts of numerals whose parts are written
as they may be.
-/

namespace RequestDoc.Numeral

open RegularExpression

/-! ### The expression -/

/-- One of the characters. -/
def oneOf (chars : List Char) : RegularExpression Char :=
  chars.foldr (fun c e => char c + e) 0

/-- The expression, or nothing. -/
def optional (e : RegularExpression Char) : RegularExpression Char :=
  1 + e

/-- A decimal digit. -/
def digitExpression : RegularExpression Char :=
  oneOf ['0', '1', '2', '3', '4', '5', '6', '7', '8', '9']

/-- Decimal digits, one at least. -/
def digitsExpression : RegularExpression Char :=
  digitExpression * digitExpression.star

/-- A whole part. -/
def wholeExpression : RegularExpression Char :=
  char '0' + oneOf ['1', '2', '3', '4', '5', '6', '7', '8', '9'] * digitExpression.star

/-- A fraction with its point. -/
def fractionExpression : RegularExpression Char :=
  char '.' * digitsExpression

/-- An exponent with its mark. -/
def exponentExpression : RegularExpression Char :=
  oneOf ['e', 'E'] * optional (oneOf ['+', '-']) * digitsExpression

/-- A numeral. -/
def expression : RegularExpression Char :=
  optional (char '-') * wholeExpression * optional fractionExpression * optional exponentExpression

/-! ### What the parts match -/

variable {text : List Char}

theorem mem_oneOf {chars : List Char} : text ∈ (oneOf chars).matches' ↔ ∃ c ∈ chars, text = [c] := by
  induction chars with
  | nil => exact ⟨fun h => h.elim, fun ⟨_, h, _⟩ => nomatch h⟩
  | cons c chars ih =>
    show text ∈ (char c).matches' + (oneOf chars).matches' ↔ _
    rw [Language.mem_add, ih]
    simp only [matches'_char, List.mem_cons, exists_eq_or_imp]
    rfl

theorem mem_star_oneOf {chars : List Char} : text ∈ (oneOf chars).star.matches' ↔ ∀ c ∈ text, c ∈ chars := by
  rw [matches'_star, Language.mem_kstar]
  constructor
  · rintro ⟨parts, rfl, hparts⟩ c hc
    obtain ⟨part, hpart, hc⟩ := List.mem_flatten.mp hc
    obtain ⟨d, hd, rfl⟩ := mem_oneOf.mp (hparts part hpart)
    rwa [List.mem_singleton.mp hc]
  · intro h
    have hparts : text = (text.map fun c => [c]).flatten := by rw [← List.flatMap_def, List.flatMap_singleton']
    refine ⟨text.map fun c => [c], hparts, fun part hpart => ?_⟩
    obtain ⟨c, hc, rfl⟩ := List.mem_map.mp hpart
    exact mem_oneOf.mpr ⟨c, h c hc, rfl⟩

theorem mem_optional {e : RegularExpression Char} : text ∈ (optional e).matches' ↔ text = [] ∨ text ∈ e.matches' := by
  show text ∈ (1 : Language Char) + e.matches' ↔ _
  rw [Language.mem_add, Language.mem_one]

theorem mem_mul {e f : RegularExpression Char} :
    text ∈ (e * f).matches' ↔ ∃ s ∈ e.matches', ∃ t ∈ f.matches', s ++ t = text :=
  Language.mem_mul

theorem isDigit_iff_mem {c : Char} : c.isDigit = true ↔ c ∈ ['0', '1', '2', '3', '4', '5', '6', '7', '8', '9'] := by
  constructor
  · intro h
    have hdigits : ∀ n < 58, (Char.ofNat n).isDigit = true →
        Char.ofNat n ∈ ['0', '1', '2', '3', '4', '5', '6', '7', '8', '9'] := by decide
    have hclass := Bool.and_eq_true_iff.mp h
    have hlt : c.toNat < 58 := Nat.lt_succ_of_le (UInt32.le_iff_toNat_le.mp (of_decide_eq_true hclass.2))
    have hmem := hdigits c.toNat hlt
    rw [Char.ofNat_toNat] at hmem
    exact hmem h
  · intro h
    simp only [List.mem_cons, List.not_mem_nil, or_false] at h
    rcases h with rfl | rfl | rfl | rfl | rfl | rfl | rfl | rfl | rfl | rfl <;> decide

theorem mem_digitExpression : text ∈ digitExpression.matches' ↔ ∃ c, c.isDigit = true ∧ text = [c] := by
  simp only [digitExpression, mem_oneOf, ← isDigit_iff_mem]

theorem mem_star_digitExpression : text ∈ digitExpression.star.matches' ↔ Digits text := by
  simp only [digitExpression, mem_star_oneOf, ← isDigit_iff_mem]
  rfl

theorem mem_digitsExpression : text ∈ digitsExpression.matches' ↔ text ≠ [] ∧ Digits text := by
  rw [digitsExpression, mem_mul]
  constructor
  · rintro ⟨s, hs, t, ht, rfl⟩
    obtain ⟨c, hc, rfl⟩ := mem_digitExpression.mp hs
    exact ⟨List.cons_ne_nil c t, List.forall_mem_cons.mpr ⟨hc, mem_star_digitExpression.mp ht⟩⟩
  · rintro ⟨hne, hd⟩
    obtain ⟨c, t, rfl⟩ := List.exists_cons_of_ne_nil hne
    obtain ⟨hc, ht⟩ := List.forall_mem_cons.mp hd
    exact ⟨[c], mem_digitExpression.mpr ⟨c, hc, rfl⟩, t, mem_star_digitExpression.mpr ht, rfl⟩

theorem mem_wholeExpression : text ∈ wholeExpression.matches' ↔ Whole text := by
  rw [wholeExpression, matches'_add, Language.mem_add]
  have hdigit {c : Char} : c ∈ ['1', '2', '3', '4', '5', '6', '7', '8', '9'] ↔ c ≠ '0' ∧ c.isDigit = true := by
    rw [isDigit_iff_mem]
    simp only [List.mem_cons, List.not_mem_nil, or_false]
    refine ⟨fun h => ⟨?_, Or.inr h⟩, fun h => h.2.resolve_left h.1⟩
    rintro rfl
    revert h
    decide
  constructor
  · rintro (h | h)
    · obtain rfl : text = ['0'] := h
      exact .zero
    · obtain ⟨s, hs, t, ht, rfl⟩ := mem_mul.mp h
      obtain ⟨c, hc, rfl⟩ := mem_oneOf.mp hs
      obtain ⟨hzero, hc⟩ := hdigit.mp hc
      exact .digits hzero (List.forall_mem_cons.mpr ⟨hc, mem_star_digitExpression.mp ht⟩)
  · rintro (_ | @⟨c, cs, hzero, hd⟩)
    · exact Or.inl rfl
    · obtain ⟨hc, hcs⟩ := List.forall_mem_cons.mp hd
      exact Or.inr (mem_mul.mpr ⟨[c], mem_oneOf.mpr ⟨c, hdigit.mpr ⟨hzero, hc⟩, rfl⟩, cs,
        mem_star_digitExpression.mpr hcs, rfl⟩)

theorem mem_optional_fractionExpression :
    text ∈ (optional fractionExpression).matches' ↔ ∃ digits, Digits digits ∧ fractionText digits = text := by
  rw [mem_optional, fractionExpression, mem_mul]
  constructor
  · rintro (rfl | ⟨s, hs, t, ht, rfl⟩)
    · exact ⟨[], fun _ h => (nomatch h), rfl⟩
    · obtain rfl : s = ['.'] := hs
      obtain ⟨hne, hd⟩ := mem_digitsExpression.mp ht
      exact ⟨t, hd, by simp [fractionText, hne]⟩
  · rintro ⟨digits, hd, rfl⟩
    by_cases hne : digits = []
    · exact Or.inl (by simp [fractionText, hne])
    · exact Or.inr ⟨['.'], rfl, digits, mem_digitsExpression.mpr ⟨hne, hd⟩, by simp [fractionText, hne]⟩

theorem mem_exponentExpression : text ∈ exponentExpression.matches' ↔ ∃ e : Exponent, e.WellFormed ∧ e.text = text := by
  simp only [exponentExpression, mem_mul, mem_optional, mem_digitsExpression, mem_oneOf]
  constructor
  · rintro ⟨_, ⟨_, ⟨mark, hmark, rfl⟩, sign, hsign, rfl⟩, digits, ⟨hne, hd⟩, rfl⟩
    have hmark : mark = 'e' ∨ mark = 'E' := by simpa using hmark
    rcases hsign with rfl | ⟨c, hc, rfl⟩
    · exact ⟨⟨mark, none, digits⟩, ⟨hmark, Or.inl rfl, hne, hd⟩, rfl⟩
    · have hsign : some c = some '+' ∨ some c = some '-' := by simpa using hc
      exact ⟨⟨mark, some c, digits⟩, ⟨hmark, Or.inr hsign, hne, hd⟩, rfl⟩
  · rintro ⟨e, he, rfl⟩
    have hmark : e.mark ∈ ['e', 'E'] := by simpa using he.mark
    refine ⟨[e.mark] ++ e.sign.toList, ⟨[e.mark], ⟨e.mark, hmark, rfl⟩, e.sign.toList, ?_, rfl⟩, e.digits,
      ⟨he.nonempty, he.digits⟩, List.append_assoc ..⟩
    rcases he.sign with hs | hs | hs
    · exact Or.inl (by rw [hs]; rfl)
    · exact Or.inr ⟨'+', by decide, by rw [hs]; rfl⟩
    · exact Or.inr ⟨'-', by decide, by rw [hs]; rfl⟩

theorem mem_optional_exponentExpression :
    text ∈ (optional exponentExpression).matches' ↔
      ∃ exponent : Option Exponent, (∀ e ∈ exponent, e.WellFormed) ∧ (exponent.map Exponent.text).getD [] = text := by
  rw [mem_optional, mem_exponentExpression]
  constructor
  · rintro (rfl | ⟨e, he, rfl⟩)
    · exact ⟨none, fun _ h => (nomatch h), rfl⟩
    · refine ⟨some e, ?_, rfl⟩
      rintro _ ⟨⟩
      exact he
  · rintro ⟨exponent, he, rfl⟩
    cases exponent with
    | none => exact Or.inl rfl
    | some e => exact Or.inr ⟨e, he e rfl, rfl⟩

/-- The expression matches the texts of numerals. -/
theorem mem_expression_iff : text ∈ expression.matches' ↔ ∃ n : Numeral, n.WellFormed ∧ n.text = text := by
  simp only [expression, mem_mul, mem_optional_fractionExpression, mem_optional_exponentExpression, mem_wholeExpression]
  constructor
  · rintro ⟨_, ⟨_, ⟨minus, hminus, whole, hwhole, rfl⟩, _, ⟨fraction, hfraction, rfl⟩, rfl⟩, _, ⟨exponent, he, rfl⟩, rfl⟩
    rcases mem_optional.mp hminus with rfl | hminus
    · exact ⟨⟨false, whole, fraction, exponent⟩, ⟨hwhole, hfraction, he⟩, rfl⟩
    · obtain rfl : minus = ['-'] := hminus
      exact ⟨⟨true, whole, fraction, exponent⟩, ⟨hwhole, hfraction, he⟩, rfl⟩
  · rintro ⟨⟨negative, whole, fraction, exponent⟩, ⟨hwhole, hfraction, he⟩, rfl⟩
    refine ⟨_, ⟨_, ⟨_, mem_optional.mpr ?_, whole, hwhole, rfl⟩, _, ⟨fraction, hfraction, rfl⟩, rfl⟩, _, ⟨exponent, he, rfl⟩, rfl⟩
    cases negative with
    | true => exact Or.inr rfl
    | false => exact Or.inl rfl

end RequestDoc.Numeral

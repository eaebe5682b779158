import RequestDoc.Proofs.Number.Expression

/-!
The longest numeral. Scanning a text that starts with a numeral finds a numeral that starts with that one: a part is
taken as far as its digits go, so a part that goes on is the last one that the shorter numeral has.
-/

namespace RequestDoc

/-- The text taken is the longest one of the language that the text starts with. -/
structure Longest (l : Language Char) (text taken : List Char) : Prop where
  mem : taken ∈ l
  starts : taken <+: text
  longest : ∀ other ∈ l, other <+: text → other.length ≤ taken.length

theorem Longest.unique {l : Language Char} {text s t : List Char} (hs : Longest l text s) (ht : Longest l text t) : s = t := by
  have hle := ht.longest s hs.mem hs.starts
  exact (List.prefix_of_prefix_length_le hs.starts ht.starts hle).eq_of_length_le (hs.longest t ht.mem ht.starts)

namespace Numeral

/-! ### Parts of a numeral with more text behind it -/

theorem exponent_starts {exponent : Option Exponent} (h : ∀ e ∈ exponent, e.WellFormed) (more : List Char) :
    (exponent.map Exponent.text).getD [] <+:
      ((scanExponent ((exponent.map Exponent.text).getD [] ++ more)).1.map Exponent.text).getD [] := by
  cases exponent with
  | none => exact List.nil_prefix
  | some e =>
    obtain ⟨hmark, hsign, hne, hd⟩ := h e rfl
    have hscan := scanSign_append hsign hne hd more
    have htake : (e.digits ++ more).takeWhile Char.isDigit = e.digits ++ more.takeWhile Char.isDigit :=
      List.takeWhile_append_of_pos hd
    have hfound : e.digits ++ more.takeWhile Char.isDigit ≠ [] := List.append_ne_nil_of_left_ne_nil hne _
    simp only [Option.map_some, Option.getD_some, Exponent.text, List.cons_append, List.append_assoc, scanExponent,
      if_pos hmark, hscan, htake, List.isEmpty_iff, hfound, if_false]
    exact ⟨more.takeWhile Char.isDigit, by simp⟩

theorem head?_exponent {e : Exponent} (h : e.WellFormed) (more : List Char) :
    ∀ c ∈ (e.text ++ more).head?, c.isDigit = false ∧ c ≠ '.' := by
  intro c hc
  obtain rfl : e.mark = c := Option.some.inj hc
  rcases h.mark with hm | hm <;> rw [hm] <;> decide

theorem fraction_starts {fraction : List Char} {exponent : Option Exponent} (hf : Digits fraction)
    (he : ∀ e ∈ exponent, e.WellFormed) {more : List Char} {found : List Char × List Char}
    (hfound : found = scanFraction (fractionText fraction ++ ((exponent.map Exponent.text).getD [] ++ more))) :
    fractionText fraction ++ (exponent.map Exponent.text).getD [] <+:
      fractionText found.1 ++ ((scanExponent found.2).1.map Exponent.text).getD [] := by
  cases exponent with
  | none =>
    cases fraction with
    | nil => exact List.nil_prefix
    | cons d ds =>
      have htake : (d :: ds ++ more).takeWhile Char.isDigit = d :: ds ++ more.takeWhile Char.isDigit :=
        List.takeWhile_append_of_pos hf
      have hdigits : found.1 = d :: ds ++ more.takeWhile Char.isDigit := by
        rw [hfound, ← htake]
        simp [fractionText, scanFraction, hf d]
      rw [hdigits]
      exact ⟨_, by simp [fractionText]; rfl⟩
  | some e =>
    have hends := head?_exponent (he e rfl) more
    have hscan := scanFraction_append hf (fun c hc => (hends c hc).1) fun c hc => (hends c hc).2
    obtain rfl : found = (fraction, e.text ++ more) := hfound.trans hscan
    exact (List.prefix_append_right_inj _).mpr (exponent_starts he more)

theorem whole_starts {whole fraction : List Char} {exponent : Option Exponent} (hw : Whole whole) (hf : Digits fraction)
    (he : ∀ e ∈ exponent, e.WellFormed) (more : List Char) :
    ∃ found rest,
      scanWhole? (whole ++ (fractionText fraction ++ ((exponent.map Exponent.text).getD [] ++ more))) = some (found, rest) ∧
      whole ++ (fractionText fraction ++ (exponent.map Exponent.text).getD []) <+:
        found ++ (fractionText (scanFraction rest).1 ++ ((scanExponent (scanFraction rest).2).1.map Exponent.text).getD []) := by
  by_cases hends : ∀ c ∈ (fractionText fraction ++ ((exponent.map Exponent.text).getD [] ++ more)).head?, c.isDigit = false
  · exact ⟨whole, _, scanWhole?_append hw hends, (List.prefix_append_right_inj _).mpr (fraction_starts hf he rfl)⟩
  · -- only digits of the whole part itself can follow, behind a numeral that has no other part
    obtain rfl : fraction = [] := by
      cases fraction with
      | nil => rfl
      | cons d ds => exact absurd (by simp [fractionText]) hends
    obtain rfl : exponent = none := by
      cases exponent with
      | none => rfl
      | some e => exact absurd (fun c hc => (head?_exponent (he e rfl) more c hc).1) hends
    cases hw with
    | zero => exact ⟨['0'], more, rfl, ['0'].prefix_append _⟩
    | @digits c cs hzero hd =>
      have htake : (c :: cs ++ more).takeWhile Char.isDigit = c :: cs ++ more.takeWhile Char.isDigit :=
        List.takeWhile_append_of_pos hd
      refine ⟨c :: cs ++ more.takeWhile Char.isDigit, (c :: cs ++ more).dropWhile Char.isDigit, ?_, ?_⟩
      · rw [← htake]
        simp [fractionText, scanWhole?, hzero, hd c]
      · simp [fractionText]

/-! ### Whole numerals -/

/-- A text that starts with a numeral is scanned as a numeral that starts with that one. -/
theorem scan?_starts {n : Numeral} (h : n.WellFormed) (more : List Char) :
    ∃ m rest, scan? (n.text ++ more) = some (m, rest) ∧ n.text <+: m.text := by
  obtain ⟨negative, whole, fraction, exponent⟩ := n
  obtain ⟨found, rest, hscan, hstarts⟩ := whole_starts h.whole h.fraction h.exponent more
  have hminus := scanMinus_whole h.whole negative (fractionText fraction ++ ((exponent.map Exponent.text).getD [] ++ more))
  refine ⟨⟨negative, found, (scanFraction rest).1, (scanExponent (scanFraction rest).2).1⟩,
    (scanExponent (scanFraction rest).2).2, ?_, ?_⟩
  · simp only at hscan hminus
    simp only [scan?, text, List.append_assoc, hminus, hscan, Option.bind_eq_bind, Option.bind_some]
    rfl
  · simp only [text, List.append_assoc]
    exact (List.prefix_append_right_inj _).mpr hstarts

/-- Scanning finds the longest text of the expression that the text starts with. -/
theorem longest_of_scan? {cs rest : List Char} {n : Numeral} (h : scan? cs = some (n, rest)) :
    Longest expression.matches' cs n.text := by
  obtain ⟨hn, hcs⟩ := scan?_eq_some h
  refine ⟨mem_expression_iff.mpr ⟨n, hn, rfl⟩, ⟨rest, hcs.symm⟩, ?_⟩
  rintro _ hmem ⟨more, rfl⟩
  obtain ⟨m, hm, rfl⟩ := mem_expression_iff.mp hmem
  obtain ⟨_, _, hfound, hstarts⟩ := scan?_starts hm more
  obtain ⟨rfl, rfl⟩ := Prod.mk.inj (Option.some.inj (h.symm.trans hfound))
  exact hstarts.length_le

theorem not_starts_of_scan? {cs : List Char} (h : scan? cs = none) : ∀ t ∈ expression.matches', ¬t <+: cs := by
  rintro _ hmem ⟨more, rfl⟩
  obtain ⟨m, hm, rfl⟩ := mem_expression_iff.mp hmem
  obtain ⟨_, _, hfound, -⟩ := scan?_starts hm more
  rw [h] at hfound
  cases hfound

end Numeral

end RequestDoc

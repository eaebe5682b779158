import RequestDoc.Number.Numeral

/-!
The numerals that can be written, and scanning: what is found at the start of a text is a numeral, and the
text is the numeral's text and the rest; a numeral that the text does not go on is found.
-/

namespace RequestDoc.Numeral

/-! ### What numerals are -/

/-- The characters are decimal digits. -/
def Digits (cs : List Char) : Prop :=
  ∀ c ∈ cs, c.isDigit = true

/-- The digits of a whole part: a single zero, or digits of which the first is not zero. -/
inductive Whole : List Char → Prop where
  | zero : Whole ['0']
  | digits {c : Char} {cs : List Char} : c ≠ '0' → Digits (c :: cs) → Whole (c :: cs)

/-- An exponent has a mark, perhaps a sign, and at least one digit. -/
structure Exponent.WellFormed (e : Exponent) : Prop where
  mark : e.mark = 'e' ∨ e.mark = 'E'
  sign : e.sign = none ∨ e.sign = some '+' ∨ e.sign = some '-'
  nonempty : e.digits ≠ []
  digits : Digits e.digits

/-- The parts of a numeral are written as they may be. -/
structure WellFormed (n : Numeral) : Prop where
  whole : Whole n.whole
  fraction : Digits n.fraction
  exponent : ∀ e ∈ n.exponent, e.WellFormed

/-! ### What scanning finds is a numeral at the start of the text -/

theorem digits_takeWhile (cs : List Char) : Digits (cs.takeWhile Char.isDigit) := by
  intro c hc
  exact (List.all_eq_true.mp List.all_takeWhile) c hc

theorem scanMinus_eq (cs : List Char) :
    cs = (if (scanMinus cs).1 then ['-'] else []) ++ (scanMinus cs).2 := by
  unfold scanMinus
  split <;> simp

theorem scanWhole?_eq_some {cs whole rest : List Char} (h : scanWhole? cs = some (whole, rest)) :
    Whole whole ∧ cs = whole ++ rest := by
  unfold scanWhole? at h
  split at h
  next rest' =>
    obtain ⟨rfl, rfl⟩ : ['0'] = whole ∧ rest' = rest := by simpa using h
    exact ⟨.zero, rfl⟩
  next hzero =>
    simp only at h
    split at h
    · cases h
    next hne =>
      obtain ⟨rfl, rfl⟩ : cs.takeWhile Char.isDigit = whole ∧ cs.dropWhile Char.isDigit = rest := by
        simpa using h
      refine ⟨?_, List.takeWhile_append_dropWhile.symm⟩
      have hd := digits_takeWhile cs
      cases cs with
      | nil => simp at hne
      | cons c cs =>
        by_cases hc : c.isDigit = true
        · rw [List.takeWhile_cons_of_pos hc] at hd ⊢
          exact .digits (fun h0 => hzero cs (by rw [h0])) hd
        · rw [List.takeWhile_cons_of_neg hc] at hne
          simp at hne

theorem scanFraction_eq (cs : List Char) :
    Digits (scanFraction cs).1 ∧ cs = fractionText (scanFraction cs).1 ++ (scanFraction cs).2 := by
  unfold scanFraction
  split
  next rest =>
    simp only
    split
    · simp [Digits, fractionText]
    next hne => exact ⟨digits_takeWhile rest, by simp [fractionText, hne]⟩
  · simp [Digits, fractionText]

theorem scanSign_eq (cs : List Char) :
    ((scanSign cs).1 = none ∨ (scanSign cs).1 = some '+' ∨ (scanSign cs).1 = some '-') ∧
      cs = (scanSign cs).1.toList ++ (scanSign cs).2 := by
  unfold scanSign
  split <;> simp

theorem scanExponent_eq (cs : List Char) :
    (∀ e ∈ (scanExponent cs).1, e.WellFormed) ∧
      cs = ((scanExponent cs).1.map Exponent.text).getD [] ++ (scanExponent cs).2 := by
  unfold scanExponent
  split
  next c rest =>
    split
    next hmark =>
      have hsign := scanSign_eq rest
      simp only
      split
      · simp
      next hne =>
        refine ⟨?_, ?_⟩
        · rintro e ⟨⟩
          exact ⟨hmark, hsign.1, by simpa using hne, digits_takeWhile _⟩
        · simp only [Option.map_some, Option.getD_some, Exponent.text, List.cons_append,
            List.append_assoc, List.takeWhile_append_dropWhile]
          rw [← hsign.2]
    · simp
  · simp

/-- What is found is a numeral, and the text is the numeral's text and the rest. -/
theorem scan?_eq_some {cs rest : List Char} {n : Numeral} (h : scan? cs = some (n, rest)) :
    n.WellFormed ∧ cs = n.text ++ rest := by
  simp only [scan?, Option.bind_eq_bind, Option.bind_eq_some_iff] at h
  obtain ⟨⟨whole, rest'⟩, hwhole, h⟩ := h
  obtain ⟨rfl, rfl⟩ := Prod.mk.inj (Option.some.inj h)
  obtain ⟨hw, hcs⟩ := scanWhole?_eq_some hwhole
  have hf := scanFraction_eq rest'
  have he := scanExponent_eq (scanFraction rest').2
  refine ⟨⟨hw, hf.1, he.1⟩, ?_⟩
  refine (scanMinus_eq cs).trans ?_
  simp only [text, List.append_assoc]
  rw [← he.2, ← hf.2, hcs]

/-! ### A numeral that the text does not go on is found -/

/-- No numeral goes on into the text. -/
def Ends (rest : List Char) : Prop :=
  ∀ c ∈ rest.head?, c.isDigit = false ∧ c ≠ '.' ∧ c ≠ 'e' ∧ c ≠ 'E'

theorem takeWhile_digits {ds rest : List Char} (h : Digits ds) (hr : ∀ c ∈ rest.head?, c.isDigit = false) :
    (ds ++ rest).takeWhile Char.isDigit = ds ∧ (ds ++ rest).dropWhile Char.isDigit = rest := by
  induction ds with
  | nil =>
    cases rest with
    | nil => simp
    | cons c rest =>
      have hc := hr c (by simp)
      simp [hc]
  | cons d ds ih =>
    have hd := h d (by simp)
    have := ih fun c hc => h c (List.mem_cons_of_mem d hc)
    simp [hd, this]

theorem scanMinus_whole {whole : List Char} (h : Whole whole) (negative : Bool) (rest : List Char) :
    scanMinus ((if negative then ['-'] else []) ++ (whole ++ rest)) = (negative, whole ++ rest) := by
  cases negative with
  | true => rfl
  | false =>
    cases h with
    | zero => rfl
    | @digits c cs _ hd =>
      have hc : c ≠ '-' := by
        rintro rfl
        exact absurd (hd '-' (by simp)) (by decide)
      simp [scanMinus, hc]

theorem scanWhole?_append {whole rest : List Char} (h : Whole whole)
    (hr : ∀ c ∈ rest.head?, c.isDigit = false) : scanWhole? (whole ++ rest) = some (whole, rest) := by
  cases h with
  | zero => rfl
  | @digits c cs hne hd =>
    obtain ⟨ht, hdrop⟩ := takeWhile_digits hd hr
    rw [List.cons_append] at ht hdrop ⊢
    simp [scanWhole?, hne, ht, hdrop]

theorem scanFraction_append {digits rest : List Char} (h : Digits digits)
    (hr : ∀ c ∈ rest.head?, c.isDigit = false) (hdot : ∀ c ∈ rest.head?, c ≠ '.') :
    scanFraction (fractionText digits ++ rest) = (digits, rest) := by
  unfold fractionText
  cases digits with
  | nil =>
    cases rest with
    | nil => rfl
    | cons c rest =>
      have hc : c ≠ '.' := hdot c (by simp)
      simp [scanFraction, hc]
  | cons d ds =>
    obtain ⟨ht, hdrop⟩ := takeWhile_digits h hr
    rw [List.cons_append] at ht hdrop
    simp [scanFraction, ht, hdrop]

theorem scanSign_append {sign : Option Char} {ds : List Char}
    (hs : sign = none ∨ sign = some '+' ∨ sign = some '-') (hne : ds ≠ []) (hd : Digits ds)
    (rest : List Char) : scanSign (sign.toList ++ (ds ++ rest)) = (sign, ds ++ rest) := by
  rcases hs with rfl | rfl | rfl
  · cases ds with
    | nil => exact absurd rfl hne
    | cons d ds =>
      have hdig := hd d (by simp)
      have hplus : d ≠ '+' := by
        rintro rfl
        exact absurd hdig (by decide)
      have hminus : d ≠ '-' := by
        rintro rfl
        exact absurd hdig (by decide)
      simp [scanSign, hplus, hminus]
  · rfl
  · rfl

theorem scanExponent_append {exponent : Option Exponent} {rest : List Char}
    (h : ∀ e ∈ exponent, e.WellFormed) (hr : Ends rest) :
    scanExponent ((exponent.map Exponent.text).getD [] ++ rest) = (exponent, rest) := by
  cases exponent with
  | none =>
    cases rest with
    | nil => rfl
    | cons c rest =>
      obtain ⟨-, -, he, hE⟩ := hr c (by simp)
      simp [scanExponent, he, hE]
  | some e =>
    obtain ⟨mark, sign, digits⟩ := e
    obtain ⟨hmark, hsign, hne, hd⟩ := h _ rfl
    obtain ⟨ht, hdrop⟩ := takeWhile_digits hd fun c hc => (hr c hc).1
    have hscan := scanSign_append hsign hne hd rest
    simp only [Option.map_some, Option.getD_some, Exponent.text, List.cons_append, List.append_assoc,
      scanExponent]
    simp only at hmark hscan ht hdrop hne
    rw [if_pos hmark, hscan]
    simp [ht, hdrop, hne]

/-- What follows the whole part of a numeral does not start with a digit. -/
theorem head?_fraction_append (digits : List Char) {tail : List Char} (h : ∀ c ∈ tail.head?, c.isDigit = false) :
    ∀ c ∈ (fractionText digits ++ tail).head?, c.isDigit = false := by
  unfold fractionText
  split
  · exact h
  · simp

/-- What follows the fraction of a numeral starts with no digit and no point. -/
theorem head?_exponent_append {exponent : Option Exponent} {rest : List Char}
    (h : ∀ e ∈ exponent, e.WellFormed) (hr : Ends rest) :
    ∀ c ∈ ((exponent.map Exponent.text).getD [] ++ rest).head?, c.isDigit = false ∧ c ≠ '.' := by
  cases exponent with
  | none => exact fun c hc => ⟨(hr c hc).1, (hr c hc).2.1⟩
  | some e =>
    have hmark := (h e rfl).mark
    intro c hc
    obtain rfl : e.mark = c := by simpa [Exponent.text] using hc
    rcases hmark with hm | hm <;> rw [hm] <;> decide

/-- A numeral is found at the start of a text that does not go on with it. -/
theorem scan?_text_append {n : Numeral} (h : n.WellFormed) {rest : List Char} (hr : Ends rest) :
    scan? (n.text ++ rest) = some (n, rest) := by
  obtain ⟨negative, whole, fraction, exponent⟩ := n
  have hexp := head?_exponent_append h.exponent hr
  have hminus := scanMinus_whole h.whole negative
    (fractionText fraction ++ ((exponent.map Exponent.text).getD [] ++ rest))
  have hwhole := scanWhole?_append h.whole (head?_fraction_append fraction fun c hc => (hexp c hc).1)
  have hfrac := scanFraction_append h.fraction (fun c hc => (hexp c hc).1) fun c hc => (hexp c hc).2
  have hexponent := scanExponent_append h.exponent hr
  simp only at hwhole hfrac hexponent hminus
  simp only [scan?, text, List.append_assoc, hminus, hwhole, Option.bind_eq_bind, Option.bind_some, hfrac,
    hexponent]
  rfl

end RequestDoc.Numeral

import RequestDoc.Proofs.Lexeme.Exact

/-!
Texts with more text behind them. A name, a keyword and a numeral end in front of every character that goes on
with none of them. If such a character stands in a text, then what is read in front of it is the same whatever
follows the text, and it is left with what follows.
-/

namespace RequestDoc

/-- A character that a name, a keyword or a numeral may go on with. -/
def Character.continuesWord (x : Char) : Bool :=
  continuesName x || x == '.' || x == '+' || x == '-'

/-- A character stands in the text that no word goes on with. -/
def Settled (text : List Char) : Prop :=
  ∃ x ∈ text, Character.continuesWord x = false

variable {text tail : List Char}

theorem Settled.ne_nil (h : Settled text) : text ≠ [] := by
  rintro rfl
  obtain ⟨x, hx, -⟩ := h
  cases hx

theorem Settled.append_left (h : Settled text) (front : List Char) : Settled (front ++ text) := by
  obtain ⟨x, hx, hw⟩ := h
  exact ⟨x, List.mem_append_right front hx, hw⟩

theorem Settled.of_cons {x : Char} (h : Settled (x :: text)) (hx : Character.continuesWord x = true) : Settled text := by
  obtain ⟨y, hy, hw⟩ := h
  rcases List.mem_cons.mp hy with rfl | hy
  · rw [hx] at hw
    cases hw
  · exact ⟨y, hy, hw⟩

theorem settled_of_head {x : Char} (hx : text.head? = some x) (hw : Character.continuesWord x = false) : Settled text :=
  ⟨x, List.mem_of_mem_head? hx, hw⟩

theorem takeWhile_append_of_stop {p : Char → Bool} (h : ∃ x ∈ text, p x = false) (tail : List Char) :
    (text ++ tail).takeWhile p = text.takeWhile p ∧ (text ++ tail).dropWhile p = text.dropWhile p ++ tail := by
  induction text with
  | nil =>
    obtain ⟨x, hx, -⟩ := h
    cases hx
  | cons y text ih =>
    by_cases hy : p y = true
    · obtain ⟨x, hx, hp⟩ := h
      rcases List.mem_cons.mp hx with rfl | hx
      · rw [hy] at hp
        cases hp
      · obtain ⟨htake, hdrop⟩ := ih ⟨x, hx, hp⟩
        rw [List.cons_append, List.takeWhile_cons_of_pos hy, List.takeWhile_cons_of_pos hy,
          List.dropWhile_cons_of_pos hy, List.dropWhile_cons_of_pos hy, htake, hdrop]
        exact ⟨rfl, rfl⟩
    · rw [List.cons_append, List.takeWhile_cons_of_neg hy, List.takeWhile_cons_of_neg hy,
        List.dropWhile_cons_of_neg hy, List.dropWhile_cons_of_neg hy]
      exact ⟨rfl, rfl⟩

theorem exists_stop_of_dropWhile {p : Char → Bool} (h : text.dropWhile p ≠ []) : ∃ x ∈ text, p x = false := by
  obtain ⟨x, hx⟩ := List.exists_mem_of_ne_nil _ h
  have hhead := List.head?_dropWhile_not p text
  cases hd : text.dropWhile p with
  | nil => exact absurd hd h
  | cons y rest =>
    rw [hd] at hhead
    have hmem : y ∈ text := (List.dropWhile_sublist p).subset (hd ▸ List.mem_cons_self)
    exact ⟨y, hmem, by simpa using hhead⟩

theorem Settled.word {p : Char → Bool} (h : Settled text) (hp : ∀ x, p x = true → Character.continuesWord x = true)
    (tail : List Char) :
    (text ++ tail).takeWhile p = text.takeWhile p ∧ (text ++ tail).dropWhile p = text.dropWhile p ++ tail ∧
      Settled (text.dropWhile p) := by
  obtain ⟨x, hx, hw⟩ := h
  have hstop : p x = false := by
    cases hpx : p x with
    | true => rw [hp x hpx] at hw; cases hw
    | false => rfl
  refine ⟨(takeWhile_append_of_stop ⟨x, hx, hstop⟩ tail).1, (takeWhile_append_of_stop ⟨x, hx, hstop⟩ tail).2, x, ?_, hw⟩
  rw [← List.takeWhile_append_dropWhile (p := p) (l := text)] at hx
  rcases List.mem_append.mp hx with htake | hdrop
  · rw [List.all_eq_true.mp List.all_takeWhile x htake] at hstop
    cases hstop
  · exact hdrop

theorem Character.continuesWord_of_continuesName {x : Char} (h : continuesName x = true) : continuesWord x = true := by
  simp [continuesWord, h]

theorem Character.continuesWord_of_isDigit {x : Char} (h : x.isDigit = true) : continuesWord x = true :=
  continuesWord_of_continuesName (continuesName_of_isDigit h)

theorem Character.continuesName_of_isAlpha {x : Char} (h : x.isAlpha = true) : continuesName x = true :=
  Bool.or_eq_true_iff.mpr (Or.inr (Bool.or_eq_true_iff.mpr (Or.inl h)))

theorem Character.continuesName_of_hexValue? {x : Char} (h : (hexValue? x).isSome = true) : continuesName x = true := by
  unfold hexValue? at h
  split at h
  next hdigit => exact continuesName_of_isDigit hdigit
  · split at h
    next hx =>
      have hlower : x.isLower = true :=
        Bool.and_eq_true_iff.mpr ⟨decide_eq_true hx.1, decide_eq_true (UInt32.le_trans hx.2 (by decide))⟩
      exact continuesName_of_isAlpha (Bool.or_eq_true_iff.mpr (Or.inr hlower))
    · split at h
      next hx =>
        have hupper : x.isUpper = true := decide_eq_true ⟨hx.1, UInt32.le_trans hx.2 (by decide)⟩
        exact continuesName_of_isAlpha (Bool.or_eq_true_iff.mpr (Or.inl hupper))
      · cases h

/-! ### Numerals -/

namespace Numeral

theorem scanMinus_settled (h : Settled text) (tail : List Char) :
    scanMinus (text ++ tail) = ((scanMinus text).1, (scanMinus text).2 ++ tail) ∧ Settled (scanMinus text).2 := by
  cases text with
  | nil => exact absurd rfl h.ne_nil
  | cons x rest =>
    by_cases hx : x = '-'
    · subst hx
      exact ⟨rfl, h.of_cons rfl⟩
    · simp [scanMinus, hx, h]

theorem scanWhole?_of_ne_zero (h : text.head? ≠ some '0') :
    scanWhole? text =
      if (text.takeWhile Char.isDigit).isEmpty then none
      else some (text.takeWhile Char.isDigit, text.dropWhile Char.isDigit) := by
  unfold scanWhole?
  split
  next => exact absurd rfl h
  · rfl

theorem scanWhole?_settled (h : Settled text) (tail : List Char) :
    scanWhole? (text ++ tail) = (scanWhole? text).map (fun (whole, rest) => (whole, rest ++ tail)) ∧
      ∀ whole rest, scanWhole? text = some (whole, rest) → Settled rest := by
  obtain ⟨htake, hdrop, hrest⟩ := h.word (fun _ => Character.continuesWord_of_isDigit) tail
  by_cases hzero : text.head? = some '0'
  · obtain ⟨more, rfl⟩ := List.head?_eq_some_iff.mp hzero
    refine ⟨rfl, ?_⟩
    rintro _ _ ⟨⟩
    exact h.of_cons rfl
  · have hzero' : (text ++ tail).head? ≠ some '0' := by
      rwa [List.head?_append, List.head?_eq_some_head h.ne_nil, Option.some_or, ← List.head?_eq_some_head]
    rw [scanWhole?_of_ne_zero hzero, scanWhole?_of_ne_zero hzero', htake, hdrop]
    split
    · exact ⟨rfl, fun _ _ h => nomatch h⟩
    · refine ⟨rfl, ?_⟩
      rintro _ _ ⟨⟩
      exact hrest

theorem scanFraction_settled (h : Settled text) (tail : List Char) :
    scanFraction (text ++ tail) = ((scanFraction text).1, (scanFraction text).2 ++ tail) ∧
      Settled (scanFraction text).2 := by
  cases text with
  | nil => exact absurd rfl h.ne_nil
  | cons x rest =>
    by_cases hx : x = '.'
    · subst hx
      obtain ⟨htake, hdrop, hrest⟩ := (h.of_cons rfl).word (fun _ => Character.continuesWord_of_isDigit) tail
      simp only [scanFraction, List.cons_append, htake, hdrop]
      split
      · exact ⟨rfl, h⟩
      · exact ⟨rfl, hrest⟩
    · simp [scanFraction, hx, h]

theorem scanSign_settled (h : Settled text) (tail : List Char) :
    scanSign (text ++ tail) = ((scanSign text).1, (scanSign text).2 ++ tail) ∧ Settled (scanSign text).2 := by
  cases text with
  | nil => exact absurd rfl h.ne_nil
  | cons x rest =>
    by_cases hplus : x = '+'
    · subst hplus
      exact ⟨rfl, h.of_cons rfl⟩
    · by_cases hminus : x = '-'
      · subst hminus
        exact ⟨rfl, h.of_cons rfl⟩
      · simp [scanSign, hplus, hminus, h]

theorem scanExponent_settled (h : Settled text) (tail : List Char) :
    scanExponent (text ++ tail) = ((scanExponent text).1, (scanExponent text).2 ++ tail) ∧
      Settled (scanExponent text).2 := by
  cases text with
  | nil => exact absurd rfl h.ne_nil
  | cons x rest =>
    by_cases hx : x = 'e' ∨ x = 'E'
    · have hmark : Character.continuesWord x = true := by
        rcases hx with rfl | rfl <;> decide
      obtain ⟨hsign, hrest⟩ := scanSign_settled (h.of_cons hmark) tail
      obtain ⟨htake, hdrop, hlast⟩ := hrest.word (fun _ => Character.continuesWord_of_isDigit) tail
      simp only [scanExponent, List.cons_append, hx, if_true, hsign, htake, hdrop]
      split
      · exact ⟨rfl, h⟩
      · exact ⟨rfl, hlast⟩
    · simp [scanExponent, hx, h]

/-- The longest numeral is the same whatever follows a settled text. -/
theorem scan?_settled (h : Settled text) (tail : List Char) :
    scan? (text ++ tail) = (scan? text).map fun (n, rest) => (n, rest ++ tail) := by
  obtain ⟨hminus, h1⟩ := scanMinus_settled h tail
  obtain ⟨hwhole, h2⟩ := scanWhole?_settled h1 tail
  simp only [scan?, hminus, hwhole]
  cases hw : scanWhole? (scanMinus text).2 with
  | none => rfl
  | some r =>
    obtain ⟨whole, rest⟩ := r
    obtain ⟨hfraction, h3⟩ := scanFraction_settled (h2 whole rest hw) tail
    obtain ⟨hexponent, -⟩ := scanExponent_settled h3 tail
    simp only [Option.map_some, Option.bind_eq_bind, Option.bind_some, hfraction, hexponent]
    rfl

end Numeral

/-! ### Quoted texts -/

namespace Quoted

theorem hexNumber?_eq_some {cs : List Char} {n : Nat} (h : hexNumber? cs = some n) :
    ∃ a b c d rest, cs = a :: b :: c :: d :: rest ∧ ∀ x ∈ [a, b, c, d], (Character.hexValue? x).isSome = true := by
  unfold hexNumber? at h
  split at h
  next a b c d rest =>
    simp only [Option.bind_eq_bind, Option.bind_eq_some_iff] at h
    obtain ⟨_, ha, _, hb, _, hc, _, hd, -⟩ := h
    exact ⟨a, b, c, d, rest, rfl, by simp [ha, hb, hc, hd]⟩
  · cases h

/-- Fewer than four hexadecimal digits are not completed by what follows a settled text. -/
theorem hexNumber?_settled (h : Settled text) (tail : List Char) : hexNumber? (text ++ tail) = hexNumber? text := by
  have hnone : text.length < 4 → hexNumber? (text ++ tail) = none := by
    intro hlen
    cases hn : hexNumber? (text ++ tail) with
    | none => rfl
    | some n =>
      obtain ⟨a, b, c, d, rest, heq, hhex⟩ := hexNumber?_eq_some hn
      obtain ⟨x, hx, hw⟩ := h
      -- the character that settles the text would have to be one of the digits
      have hmem : x ∈ [a, b, c, d] := by
        have htake : text = (text ++ tail).take text.length := by rw [List.take_left]
        rw [htake, heq] at hx
        have : [a, b, c, d] = (a :: b :: c :: d :: rest).take 4 := rfl
        rw [this]
        exact List.take_subset_take_left _ (Nat.le_of_lt hlen) hx
      rw [Character.continuesWord_of_continuesName (Character.continuesName_of_hexValue? (hhex x hmem))] at hw
      cases hw
  match text with
  | _ :: _ :: _ :: _ :: _ => rfl
  | [] => exact hnone (by simp)
  | [_] => exact hnone (by simp)
  | [_, _] => exact hnone (by simp)
  | [_, _, _] => exact hnone (by simp)

theorem escape_append {c : Char} {n : Nat} (h : escape text = .ok (c, n)) (tail : List Char) :
    escape (text ++ tail) = .ok (c, n) := by
  cases text with
  | nil => cases h
  | cons x rest =>
    simp only [escape, List.cons_append] at h ⊢
    cases hshort : shortEscape? x with
    | some d => rwa [hshort] at h
    | none =>
      simp only [hshort] at h ⊢
      by_cases hx : x = 'u'
      · simp only [hx, if_true] at h ⊢
        cases hn : hexNumber? rest with
        | none => simp only [hn] at h; cases h
        | some k =>
          obtain ⟨_, _, _, _, _, rfl, -⟩ := hexNumber?_eq_some hn
          rw [List.cons_append, List.cons_append, List.cons_append, List.cons_append, hexNumber?_append,
            ← hexNumber?_append, hn]
          simpa only [hn] using h
      · simp only [hx, if_false] at h
        cases h

theorem escape_settled (h : Settled text) (tail : List Char) : escape (text ++ tail) = escape text := by
  cases text with
  | nil => exact absurd rfl h.ne_nil
  | cons x rest =>
    simp only [escape, List.cons_append]
    cases shortEscape? x with
    | some d => rfl
    | none =>
      by_cases hx : x = 'u'
      · subst hx
        simp only [hexNumber?_settled (h.of_cons rfl) tail]
      · simp only [hx, if_false]

theorem scanBody_settled {decoded read : List Char}
    (h : ∀ fault r rest, scanBody decoded read text = .broken fault r → read.reverse ++ text = r ++ rest → Settled rest)
    (tail : List Char) : scanBody decoded read (text ++ tail) = scanBody decoded read text := by
  -- only where there is a fault does the scan depend on what follows, and there the text is settled
  fun_induction scanBody decoded read text with
  | case1 decoded read => exact absurd rfl (h _ _ [] rfl rfl).ne_nil
  | case2 decoded read rest => rw [List.cons_append, scanBody, if_pos rfl]
  | case3 decoded read rest fault hfault =>
    have hrest := h fault _ rest rfl (by simp)
    rw [List.cons_append, scanBody, if_neg (by decide), if_pos rfl, escape_settled hrest, hfault]
  | case4 decoded read rest d n hd _ ih =>
    rw [List.cons_append, scanBody, if_neg (by decide), if_pos rfl, escape_append hd]
    obtain ⟨hn, -⟩ := escape_eq_ok hd
    simp only [List.take_append_of_le_length hn, List.drop_append_of_le_length hn]
    refine ih fun fault r rest' hbroken hrest => h fault r rest' hbroken ?_
    rw [← hrest]
    simp
  | case5 decoded read x rest hquote hslash ih =>
    rw [List.cons_append, scanBody, if_neg hquote, if_neg hslash]
    refine ih fun fault r rest' hbroken hrest => h fault r rest' hbroken ?_
    rw [← hrest]
    simp

theorem scan_unopened {cs : List Char} (h : cs.head? ≠ some '"') : scan cs = .broken .unopened [] := by
  unfold scan
  split
  next => exact absurd rfl h
  · rfl

/-- A quoted text is read in the same way whatever follows, if it is closed or the fault stands in front of a
settled text. -/
theorem scan_settled (h : ∀ fault r rest, scan text = .broken fault r → text = r ++ rest → Settled rest)
    (tail : List Char) : scan (text ++ tail) = scan text := by
  by_cases hquote : text.head? = some '"'
  · obtain ⟨rest, rfl⟩ := List.head?_eq_some_iff.mp hquote
    exact scanBody_settled (fun fault r more hbroken heq => h fault r more hbroken heq) tail
  · have hset := h _ _ text (scan_unopened hquote) rfl
    rw [scan_unopened hquote, scan_unopened]
    rwa [List.head?_append, List.head?_eq_some_head hset.ne_nil, Option.some_or, ← List.head?_eq_some_head]

end Quoted

end RequestDoc

import RequestDoc.Number.Numeral.WellFormed
import RequestDoc.Number.Shortest.ReadBack

/-!
The layout of printed numbers. A decimal that is laid out without an exponent is a numeral of the same
value, so a finite number is printed as a numeral that writes it.
-/

namespace RequestDoc

namespace Numeral

/-! ### Digits -/

theorem digits_toDigits (n : Nat) : Digits (Nat.toDigits 10 n) :=
  fun _ hc => Nat.isDigit_of_mem_toDigits (by decide) (by decide) hc

theorem toDigits_eq_cons {n : Nat} (h : 0 < n) : ∃ c cs, Nat.toDigits 10 n = c :: cs ∧ c ≠ '0' := by
  induction n using Nat.strongRecOn with
  | _ n ih =>
    by_cases hn : n < 10
    · refine ⟨n.digitChar, [], Nat.toDigits_of_lt_base hn, ?_⟩
      rw [ne_eq, Nat.digitChar_eq_zero]
      omega
    · obtain ⟨c, cs, hc, hne⟩ := ih (n / 10) (by omega) (by omega)
      refine ⟨c, cs ++ [(n % 10).digitChar], ?_, hne⟩
      rw [Nat.toDigits_of_base_le (by decide) (by omega), hc, List.cons_append]

/-- The digits of a natural number are a whole part. -/
theorem whole_toDigits (n : Nat) : Whole (Nat.toDigits 10 n) := by
  by_cases h : n = 0
  · rw [h, Nat.toDigits_zero]
    exact .zero
  · obtain ⟨c, cs, hc, hne⟩ := toDigits_eq_cons (Nat.pos_of_ne_zero h)
    have hd := digits_toDigits n
    rw [hc] at hd ⊢
    exact .digits hne hd

theorem trimZeros_append (cs : List Char) : ∃ k, cs = trimZeros cs ++ List.replicate k '0' := by
  refine ⟨(cs.reverse.takeWhile (· = '0')).length, ?_⟩
  have hrep : cs.reverse.takeWhile (· = '0') =
      List.replicate (cs.reverse.takeWhile (· = '0')).length '0' := by
    rw [List.eq_replicate_iff]
    refine ⟨rfl, ?_⟩
    intro c hc
    simpa using (List.all_eq_true.mp List.all_takeWhile) c hc
  have hsplit := congrArg List.reverse
    (List.takeWhile_append_dropWhile (p := fun c : Char => decide (c = '0')) (l := cs.reverse))
  rw [List.reverse_append, List.reverse_reverse, hrep, List.reverse_replicate] at hsplit
  exact hsplit.symm

theorem digits_trimZeros {cs : List Char} (h : Digits cs) : Digits (trimZeros cs) := by
  obtain ⟨k, hk⟩ := trimZeros_append cs
  intro c hc
  refine h c ?_
  rw [hk]
  exact List.mem_append_left _ hc

end Numeral

namespace Decimal

/-! ### The layout of a decimal -/

/-- The digits behind the point of a decimal with `places` places, before zeros are trimmed. -/
theorem ofDigits_leftpad (r places : Nat) :
    Natural.ofDigits ((Nat.toDigits 10 r).leftpad places '0') = r := by
  rw [List.leftpad, Natural.ofDigits_append]
  simp

theorem length_leftpad_toDigits {r places : Nat} (hp : 0 < places) (hr : r < Nat.pow 10 places) :
    ((Nat.toDigits 10 r).leftpad places '0').length = places := by
  have := (Nat.length_toDigits_le_iff (n := r) (by decide) hp).mpr hr
  rw [List.length_leftpad]
  omega

theorem digits_leftpad (r places : Nat) : Numeral.Digits ((Nat.toDigits 10 r).leftpad places '0') := by
  intro c hc
  rw [List.leftpad] at hc
  rcases List.mem_append.mp hc with h | h
  · rw [List.eq_of_mem_replicate h]
    rfl
  · exact Numeral.digits_toDigits r c h

/-- A decimal is laid out as a numeral. -/
theorem wellFormed_numeral (negative : Bool) (d : Decimal) : (d.numeral negative).WellFormed where
  whole := Numeral.whole_toDigits _
  fraction := by
    simp only [numeral]
    split
    · simp [Numeral.Digits]
    · exact Numeral.digits_trimZeros (digits_leftpad _ _)
  exponent := by simp [numeral]

/-- The fraction of a laid out decimal lacks some zeros at its end. -/
theorem numeral_fraction (negative : Bool) (d : Decimal) :
    ∃ k, (d.numeral negative).fraction.length + k = (-d.exponent).toNat ∧
      Natural.ofDigits (d.numeral negative).fraction * Nat.pow 10 k =
        d.digits * Nat.pow 10 d.exponent.toNat % Nat.pow 10 (-d.exponent).toNat := by
  simp only [numeral]
  split
  next h0 => exact ⟨0, by simp [h0, Nat.mod_one, Natural.ofDigits_eq]⟩
  next h0 =>
    obtain ⟨k, hk⟩ := Numeral.trimZeros_append
      ((Nat.toDigits 10 (d.digits * Nat.pow 10 d.exponent.toNat % Nat.pow 10 (-d.exponent).toNat)).leftpad
        (-d.exponent).toNat '0')
    refine ⟨k, ?_, ?_⟩
    · have hl := congrArg List.length hk
      rw [List.length_append, List.length_replicate, length_leftpad_toDigits (Nat.pos_of_ne_zero h0)
        (Nat.mod_lt _ (Nat.pow_pos (by decide)))] at hl
      exact hl.symm
    · have hn := congrArg Natural.ofDigits hk
      rw [ofDigits_leftpad, Natural.ofDigits_append, List.length_replicate,
        Natural.ofDigits_replicate_zero, Nat.add_zero] at hn
      exact hn.symm

/-- A decimal and its layout have the same nearest number. -/
theorem magnitude_numeral (negative : Bool) (d : Decimal) :
    (d.numeral negative).decimal.magnitude = d.magnitude := by
  obtain ⟨k, hlen, hfrac⟩ := numeral_fraction negative d
  have hwhole : Natural.ofDigits (d.numeral negative).whole =
      d.digits * Nat.pow 10 d.exponent.toNat / Nat.pow 10 (-d.exponent).toNat := Natural.ofDigits_toDigits _
  have hdigits : (d.numeral negative).decimal.digits * Nat.pow 10 k = d.digits * Nat.pow 10 d.exponent.toNat := by
    rw [Numeral.decimal, Natural.ofDigits_append, Nat.add_mul, hfrac, Nat.mul_assoc, ← Natural.pow_ten_add, hlen,
      hwhole]
    exact Nat.div_add_mod' ..
  have hexp : (d.numeral negative).decimal.exponent = -((-d.exponent).toNat : Int) + k := by
    have : (d.numeral negative).decimal.exponent = -((d.numeral negative).fraction.length : Int) := by
      simp [Numeral.decimal, numeral]
    omega
  calc (d.numeral negative).decimal.magnitude
      = (⟨(d.numeral negative).decimal.digits, -((-d.exponent).toNat : Int) + k⟩ : Decimal).magnitude := by
        rw [← hexp]
    _ = (⟨d.digits * Nat.pow 10 d.exponent.toNat, -((-d.exponent).toNat : Int)⟩ : Decimal).magnitude := by
        rw [← magnitude_mul_pow, hdigits]
    _ = (⟨d.digits, -((-d.exponent).toNat : Int) + d.exponent.toNat⟩ : Decimal).magnitude :=
        magnitude_mul_pow ..
    _ = d.magnitude := by
        congr 2
        omega

end Decimal

namespace Binary64

/-! ### The numeral of a number -/

/-- A finite number is printed as a numeral. -/
theorem wellFormed_numeral (x : Binary64) : x.numeral.WellFormed := by
  unfold numeral
  split
  · exact ⟨.zero, by simp [Numeral.Digits], by simp⟩
  · exact Decimal.wellFormed_numeral _ _

/-- The printed numeral of a finite number writes that number, with the sign of zero. -/
theorem value_numeral {x : Binary64} (h : x.isFinite = true) : x.numeral.value = x := by
  obtain ⟨negative, magnitude, hlt⟩ := x
  have hfin : magnitude < infinity := by simpa [isFinite] using h
  have hmag : (numeral ⟨negative, magnitude, hlt⟩).decimal.magnitude = magnitude := by
    unfold numeral
    split
    next h0 => simp_all [Numeral.decimal, Natural.ofDigits_eq, Decimal.magnitude, Nat.ofDigitChars]
    next h0 => rw [Decimal.magnitude_numeral, magnitude_shortest h0 hfin]
  have hneg : (numeral ⟨negative, magnitude, hlt⟩).negative = negative := by
    unfold numeral
    split <;> rfl
  simp only [Numeral.value, Decimal.toBinary64, hmag, hneg]

end Binary64

end RequestDoc

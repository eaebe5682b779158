import RequestDoc.Number.Decimal.Scaling
import RequestDoc.Number.Shortest

/-!
Printed numbers read back. The exact decimal of a finite magnitude reads back as that magnitude, so the
search for a shorter one ends with a decimal that does.
-/

namespace RequestDoc.Binary64

/-! ### The exact decimal -/

theorem pow_ten (k : Nat) : Nat.pow 10 k = Nat.pow 5 k * Nat.pow 2 k :=
  Nat.mul_pow 5 2 k

theorem pow_two_add (m n : Nat) : Nat.pow 2 (m + n) = Nat.pow 2 m * Nat.pow 2 n :=
  Nat.pow_add 2 m n

theorem pow_two_sub_mul (m n : Nat) :
    Nat.pow 2 (m - n) * Nat.pow 2 n = Nat.pow 2 m * Nat.pow 2 (n - m) := by
  rw [← pow_two_add, ← pow_two_add]
  congr 1
  omega

theorem pow_five_pos (k : Nat) : 0 < Nat.pow 5 k :=
  Nat.pow_pos (by decide)

/-- The reach of decimals lies past the finite numbers on both sides. -/
theorem pow_two_le_reach {k : Nat} (h : k ≤ places) : Nat.pow 2 k ≤ Nat.pow 10 Decimal.reach :=
  Nat.le_trans (Nat.pow_le_pow_right (by decide) h) (by decide +kernel)

theorem exact_digits_lt {magnitude : Nat} (h : magnitude < infinity) :
    (exact magnitude).digits < Nat.pow 10 (Decimal.reach + (places - (parts magnitude).2)) := by
  have hf := parts_lt magnitude
  have hp := parts_power_lt h
  have hdigits : (exact magnitude).digits =
      (parts magnitude).1 * Nat.pow 2 ((parts magnitude).2 - places) *
        Nat.pow 5 (places - (parts magnitude).2) :=
    Nat.mul_right_comm ..
  have hj : (parts magnitude).2 - places + 53 ≤ places := by
    unfold places
    omega
  rw [hdigits]
  generalize (parts magnitude).2 - places = j at hj
  generalize places - (parts magnitude).2 = k
  generalize (parts magnitude).1 = factor at hf
  have hbig : 2 * leadingBit * Nat.pow 2 j ≤ Nat.pow 10 Decimal.reach := by
    have htop : Nat.pow 2 (j + 53) = 2 * leadingBit * Nat.pow 2 j := by
      rw [Nat.mul_comm]
      exact pow_two_add j 53
    exact htop ▸ pow_two_le_reach hj
  have h5 : Nat.pow 5 k ≤ Nat.pow 10 k := Nat.pow_le_pow_left (by decide) k
  calc factor * Nat.pow 2 j * Nat.pow 5 k
      < 2 * leadingBit * Nat.pow 2 j * Nat.pow 5 k :=
        Nat.mul_lt_mul_of_pos_right (Nat.mul_lt_mul_of_pos_right hf (Nat.two_pow_pos j)) (pow_five_pos k)
    _ ≤ Nat.pow 10 Decimal.reach * Nat.pow 10 k := Nat.mul_le_mul hbig h5
    _ = Nat.pow 10 (Decimal.reach + k) := (Natural.pow_ten_add Decimal.reach k).symm

theorem le_exact_digits {magnitude : Nat} (h0 : magnitude ≠ 0) :
    Nat.pow 5 (places - (parts magnitude).2) ≤ (exact magnitude).digits :=
  calc Nat.pow 5 (places - (parts magnitude).2)
      ≤ (parts magnitude).1 * Nat.pow 5 (places - (parts magnitude).2) :=
        Nat.le_mul_of_pos_left _ (parts_pos h0)
    _ ≤ (exact magnitude).digits := Nat.le_mul_of_pos_right _ (Nat.two_pow_pos _)

theorem exact_digits_mul (magnitude : Nat) :
    (exact magnitude).digits * Nat.pow 2 places = units magnitude * Nat.pow 10 (places - (parts magnitude).2) := by
  have hpow : Nat.pow 2 ((parts magnitude).2 - places) * Nat.pow 2 places =
      Nat.pow 2 (parts magnitude).2 * Nat.pow 2 (places - (parts magnitude).2) :=
    pow_two_sub_mul (parts magnitude).2 places
  have hdigits : (exact magnitude).digits =
      (parts magnitude).1 * Nat.pow 5 (places - (parts magnitude).2) *
        Nat.pow 2 ((parts magnitude).2 - places) := rfl
  rw [hdigits, pow_ten, units, Nat.mul_assoc, hpow]
  ac_rfl

/-- The exact decimal of a finite magnitude reads back. -/
theorem magnitude_exact {magnitude : Nat} (h0 : magnitude ≠ 0) (h : magnitude < infinity) :
    (exact magnitude).magnitude = magnitude := by
  have hexp : (exact magnitude).exponent = -((places - (parts magnitude).2 : Nat) : Int) := rfl
  have hlow := le_exact_digits h0
  have hhigh := exact_digits_lt h
  have hmul := exact_digits_mul magnitude
  have hk : places - (parts magnitude).2 ≤ places := Nat.sub_le ..
  generalize places - (parts magnitude).2 = k at hexp hlow hhigh hmul hk
  have hne : (exact magnitude).digits ≠ 0 :=
    Nat.ne_of_gt (Nat.lt_of_lt_of_le (pow_five_pos k) hlow)
  have hpos : 0 < Natural.digitCount (exact magnitude).digits := Natural.digitCount_pos _
  have hreach : 0 < Decimal.reach := by decide
  have hcount : Natural.digitCount (exact magnitude).digits ≤ Decimal.reach + k :=
    (Natural.digitCount_le_iff (by omega)).mpr hhigh
  have hcount' : k ≤ Natural.digitCount (exact magnitude).digits + Decimal.reach := by
    apply Nat.le_of_not_lt
    intro hlt
    have hsmall : (exact magnitude).digits < Nat.pow 10 (k - Decimal.reach) :=
      (Natural.digitCount_le_iff (by omega)).mp
        (show Natural.digitCount (exact magnitude).digits ≤ k - Decimal.reach by omega)
    have hsplit : Nat.pow 10 (k - Decimal.reach) * Nat.pow 10 Decimal.reach = Nat.pow 10 k := by
      rw [← Natural.pow_ten_add, Nat.sub_add_cancel (by omega)]
    have hten : Nat.pow 5 k * Nat.pow 10 Decimal.reach < Nat.pow 5 k * Nat.pow 2 k := by
      rw [← pow_ten, ← hsplit]
      exact Nat.mul_lt_mul_of_pos_right (Nat.lt_of_le_of_lt hlow hsmall) (Natural.pow_ten_pos _)
    exact absurd (Nat.lt_of_mul_lt_mul_left hten) (Nat.not_lt.mpr (pow_two_le_reach hk))
  have hscale : ¬(Decimal.reach : Int) <
      (Natural.digitCount (exact magnitude).digits : Int) + (exact magnitude).exponent := by
    omega
  have hscale' : ¬(Natural.digitCount (exact magnitude).digits : Int) + (exact magnitude).exponent <
      -(Decimal.reach : Int) := by
    omega
  have hup : (exact magnitude).exponent.toNat = 0 := by omega
  have hdown : (-(exact magnitude).exponent).toNat = k := by omega
  have hone : (exact magnitude).digits * Nat.pow 10 0 = (exact magnitude).digits := Nat.mul_one _
  simp only [Decimal.magnitude, hne, hscale, hscale', if_false]
  rw [hup, hdown, hone, hmul]
  exact nearest_units h (Natural.pow_ten_pos k)

/-! ### The shortest decimal -/

theorem shortened?_eq_some {magnitude dropped : Nat} {d d' : Decimal}
    (h : shortened? magnitude d dropped = some d') : d'.magnitude = magnitude := by
  simpa using List.find?_some h

/-- The shortest decimal of a finite magnitude reads back. -/
theorem magnitude_shortest {magnitude : Nat} (h0 : magnitude ≠ 0) (h : magnitude < infinity) :
    (shortest magnitude).magnitude = magnitude := by
  unfold shortest
  simp only
  cases hs : (List.range (Natural.digitCount (exact magnitude).digits)).findSome? fun i =>
      shortened? magnitude (exact magnitude) (Natural.digitCount (exact magnitude).digits - 1 - i) with
  | none => exact magnitude_exact h0 h
  | some d =>
    obtain ⟨i, -, hi⟩ := List.exists_of_findSome?_eq_some hs
    exact shortened?_eq_some hi

end RequestDoc.Binary64

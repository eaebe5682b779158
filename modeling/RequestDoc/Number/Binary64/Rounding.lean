import RequestDoc.Number.Binary64

/-!
Rounding to double-precision numbers. The nearest magnitude depends on the quotient alone, and a finite
magnitude is nearest to its own value.
-/

namespace RequestDoc.Binary64

/-! ### Rounding a quotient -/

theorem roundDiv_mul_right (num den : Nat) {k : Nat} (hk : 0 < k) :
    roundDiv (num * k) (den * k) = roundDiv num den := by
  have hlt : 2 * (num % den * k) < den * k ↔ 2 * (num % den) < den := by
    rw [← Nat.mul_assoc]
    exact Nat.mul_lt_mul_right hk
  have heq : 2 * (num % den * k) = den * k ↔ 2 * (num % den) = den := by
    rw [← Nat.mul_assoc]
    exact Nat.mul_left_inj (Nat.ne_of_gt hk)
  simp only [roundDiv, Nat.mul_div_mul_right _ _ hk, Nat.mul_mod_mul_right, hlt, heq]

theorem roundDiv_mul_self (n : Nat) {den : Nat} (h : 0 < den) : roundDiv (n * den) den = n := by
  simp [roundDiv, h]

/-! ### The nearest magnitude -/

/-- Only the quotient counts. -/
theorem nearest_mul_right (num den : Nat) {k : Nat} (hk : 0 < k) :
    nearest (num * k) (den * k) = nearest num den := by
  simp only [nearest, Nat.mul_div_mul_right _ _ hk]
  rw [Nat.mul_right_comm, roundDiv_mul_right _ _ hk]

theorem parts_lt (magnitude : Nat) : (parts magnitude).1 < 2 * leadingBit := by
  unfold parts leadingBit
  split <;> simp only <;> omega

theorem parts_pos {magnitude : Nat} (h : magnitude ≠ 0) : 0 < (parts magnitude).1 := by
  unfold parts leadingBit
  split <;> simp only <;> omega

theorem parts_power_lt {magnitude : Nat} (h : magnitude < infinity) : (parts magnitude).2 < 2046 := by
  unfold infinity leadingBit at h
  unfold parts leadingBit
  split <;> simp only <;> omega

/-- The factor of a magnitude with a power of two has its leading bit. -/
theorem le_parts {magnitude : Nat} (h : (parts magnitude).2 ≠ 0) : leadingBit ≤ (parts magnitude).1 := by
  unfold parts at h ⊢
  split
  next hm =>
    rw [if_pos hm] at h
    exact absurd rfl h
  · exact Nat.le_add_right ..

theorem parts_eq (magnitude : Nat) : (parts magnitude).2 * leadingBit + (parts magnitude).1 = magnitude := by
  unfold parts leadingBit
  split <;> simp only <;> omega

/-- The factor of a magnitude has 53 bits, or less where there is no power of two. -/
theorem log2_units (magnitude : Nat) : (units magnitude).log2 - 52 = (parts magnitude).2 := by
  have hbit : leadingBit = 2 ^ 52 := rfl
  have hlt : (parts magnitude).1 < 2 ^ 53 := by
    have := parts_lt magnitude
    omega
  have hle := @le_parts magnitude
  unfold units
  generalize (parts magnitude).1 = factor at hlt hle
  generalize (parts magnitude).2 = power at hle
  by_cases hp : power = 0
  · subst hp
    have hone : factor * Nat.pow 2 0 = factor := Nat.mul_one factor
    rw [hone]
    by_cases h0 : factor = 0
    · simp [h0]
    · have := (Nat.log2_lt h0).mpr hlt
      omega
  · have hne : factor * Nat.pow 2 power ≠ 0 :=
      Nat.mul_ne_zero (by have := hle hp; omega) (Nat.ne_of_gt (Nat.two_pow_pos _))
    have hlog : (factor * Nat.pow 2 power).log2 = 52 + power := by
      refine (Nat.log2_eq_iff hne).mpr ⟨?_, ?_⟩
      · rw [Nat.pow_add, ← hbit]
        exact Nat.mul_le_mul_right _ (hle hp)
      · rw [show 52 + power + 1 = 53 + power by omega, Nat.pow_add]
        exact Nat.mul_lt_mul_of_pos_right hlt (Nat.two_pow_pos _)
    omega

/-- A finite magnitude is the nearest one to its own value. -/
theorem nearest_units {magnitude den : Nat} (h : magnitude < infinity) (hd : 0 < den) :
    nearest (units magnitude * den) den = magnitude := by
  have hround : roundDiv (units magnitude * den) (den * Nat.pow 2 (parts magnitude).2) =
      (parts magnitude).1 := by
    rw [units, Nat.mul_assoc, Nat.mul_comm (Nat.pow 2 (parts magnitude).2) den]
    exact roundDiv_mul_self _ (Nat.mul_pos hd (Nat.two_pow_pos _))
  simp only [nearest, Nat.mul_div_cancel _ hd, log2_units, hround, parts_eq]
  exact Nat.min_eq_left (Nat.le_of_lt h)

end RequestDoc.Binary64

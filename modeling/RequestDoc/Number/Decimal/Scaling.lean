import RequestDoc.Number.Binary64.Rounding
import RequestDoc.Number.Decimal

/-!
Decimals of the same value. Zeros at the end of the digits and a smaller exponent make no difference to the
nearest number.
-/

namespace RequestDoc

namespace Binary64

/-- Equal quotients have the same nearest magnitude. -/
theorem nearest_congr {num den num' den' : Nat} (hd : 0 < den) (hd' : 0 < den')
    (h : num * den' = num' * den) : nearest num den = nearest num' den' := by
  rw [← nearest_mul_right num den hd', ← nearest_mul_right num' den' hd, h, Nat.mul_comm den den']

end Binary64

namespace Decimal

/-- Zeros at the end of the digits count in the exponent. -/
theorem magnitude_mul_pow (n k : Nat) (e : Int) :
    (⟨n * Nat.pow 10 k, e⟩ : Decimal).magnitude = (⟨n, e + k⟩ : Decimal).magnitude := by
  by_cases h : n = 0
  · simp [magnitude, h]
  · have hn : n * Nat.pow 10 k ≠ 0 := Nat.mul_ne_zero h (Nat.ne_of_gt (Natural.pow_ten_pos k))
    have hscale : ((Natural.digitCount (n * Nat.pow 10 k) : Int) + e) = Natural.digitCount n + (e + k) := by
      rw [Natural.digitCount_mul_pow (Nat.pos_of_ne_zero h)]
      omega
    have hpow : Nat.pow 10 k * Nat.pow 10 e.toNat * Nat.pow 10 (-(e + k)).toNat =
        Nat.pow 10 (e + k).toNat * Nat.pow 10 (-e).toNat := by
      simp only [Nat.pow_eq, ← Nat.pow_add]
      congr 1
      omega
    have hnear :
        Binary64.nearest (n * Nat.pow 10 k * Nat.pow 10 e.toNat * Nat.pow 2 Binary64.places)
            (Nat.pow 10 (-e).toNat) =
          Binary64.nearest (n * Nat.pow 10 (e + k).toNat * Nat.pow 2 Binary64.places)
            (Nat.pow 10 (-(e + k)).toNat) := by
      refine Binary64.nearest_congr (Natural.pow_ten_pos _) (Natural.pow_ten_pos _) ?_
      generalize Nat.pow 2 Binary64.places = one
      generalize Nat.pow 10 k = a at hpow
      generalize Nat.pow 10 e.toNat = b at hpow
      generalize Nat.pow 10 (-(e + k)).toNat = c at hpow
      generalize Nat.pow 10 (e + k).toNat = a' at hpow
      generalize Nat.pow 10 (-e).toNat = b' at hpow
      calc n * a * b * one * c = n * one * (a * b * c) := by ac_rfl
        _ = n * one * (a' * b') := by rw [hpow]
        _ = n * a' * one * b' := by ac_rfl
    simp only [magnitude, hscale, hn, h, hnear]

end Decimal

end RequestDoc

/-!
Natural numbers and their decimal digits, of which there may be millions. Reading joins runs of digits of
the same width, and counting takes powers of ten off whose exponents are halved each time, so that
neither goes through a long number digit by digit. A text of digits has the value that reading it digit by
digit gives, and the count is the least power of ten that lies past the number.
-/

namespace RequestDoc.Natural

/-! ### Reading digits -/

/-- A run of digits that were read: the number that they write, and how many they are. -/
structure Run where
  value : Nat
  width : Nat

/-- Puts a run behind others, which are given last first. It is joined to the run before it if both have
the same width. -/
def Run.push (run : Run) : List Run → List Run
  | [] => [run]
  | before :: runs =>
    if before.width = run.width then
      push ⟨before.value * Nat.pow 10 run.width + run.value, before.width + run.width⟩ runs
    else run :: before :: runs

/-- The number that runs write together. The last run comes first. -/
def Run.join (runs : List Run) : Nat :=
  runs.foldr (fun run value => value * Nat.pow 10 run.width + run.value) 0

/-- The number that a decimal digit stands for. -/
def ofDigit (c : Char) : Nat :=
  c.toNat - '0'.toNat

/-- The natural number that decimal digits write. -/
def ofDigits (digits : List Char) : Nat :=
  Run.join (digits.foldl (fun runs c => Run.push ⟨ofDigit c, 1⟩ runs) [])

theorem Run.join_push (run : Run) (runs : List Run) :
    join (push run runs) = join runs * Nat.pow 10 run.width + run.value := by
  induction runs generalizing run with
  | nil => rfl
  | cons before runs ih =>
    rw [push]
    split
    next h =>
      have hpow : Nat.pow 10 (before.width + run.width) = Nat.pow 10 before.width * Nat.pow 10 run.width :=
        Nat.pow_add ..
      rw [ih, hpow, ← Nat.mul_assoc, ← Nat.add_assoc, ← Nat.add_mul]
      rfl
    next => rfl

/-- Digits are read as if they were read one after the other. -/
theorem ofDigits_eq (digits : List Char) : ofDigits digits = Nat.ofDigitChars 10 digits 0 := by
  have hjoin : ∀ runs, Run.join (digits.foldl (fun runs c => Run.push ⟨ofDigit c, 1⟩ runs) runs) =
      Nat.ofDigitChars 10 digits (Run.join runs) := by
    induction digits with
    | nil => exact fun _ => rfl
    | cons c digits ih =>
      intro runs
      have hten : Nat.pow 10 1 = 10 := rfl
      rw [List.foldl_cons, ih, Run.join_push, Nat.ofDigitChars_cons, hten, Nat.mul_comm]
      rfl
  exact hjoin []

@[simp]
theorem ofDigits_toDigits (n : Nat) : ofDigits (Nat.toDigits 10 n) = n :=
  (ofDigits_eq _).trans Nat.ofDigitChars_ten_toDigits

theorem ofDigits_append (cs ds : List Char) :
    ofDigits (cs ++ ds) = ofDigits cs * Nat.pow 10 ds.length + ofDigits ds := by
  rw [ofDigits_eq, ofDigits_eq, ofDigits_eq, Nat.ofDigitChars_append, Nat.ofDigitChars_eq_ofDigitChars_zero,
    Nat.mul_comm]
  rfl

@[simp]
theorem ofDigits_replicate_zero (k : Nat) : ofDigits (List.replicate k '0') = 0 := by
  simp [ofDigits_eq]

/-! ### Counting digits -/

/-- How many digits a number below ten to the power `2 ^ k` is written with. -/
def digitCountBelow : Nat → Nat → Nat
  | 0, _ => 1
  | k + 1, n =>
    let half := Nat.pow 2 k
    let power := Nat.pow 10 half
    if n < power then digitCountBelow k n else half + digitCountBelow k (n / power)

/-- How many decimal digits a natural number is written with. -/
def digitCount (n : Nat) : Nat :=
  digitCountBelow (n.log2.log2 + 1) n

theorem pow_ten_pos (k : Nat) : 0 < Nat.pow 10 k :=
  Nat.pow_pos (by decide)

theorem pow_ten_add (m n : Nat) : Nat.pow 10 (m + n) = Nat.pow 10 m * Nat.pow 10 n :=
  Nat.pow_add 10 m n

theorem digitCountBelow_pos (k n : Nat) : 0 < digitCountBelow k n := by
  induction k generalizing n with
  | zero => exact Nat.one_pos
  | succ k ih =>
    simp only [digitCountBelow]
    split
    · exact ih n
    · exact Nat.add_pos_right _ (ih _)

theorem digitCountBelow_le_iff {k n : Nat} (h : n < Nat.pow 10 (Nat.pow 2 k)) {m : Nat} (hm : 0 < m) :
    digitCountBelow k n ≤ m ↔ n < Nat.pow 10 m := by
  induction k generalizing n m with
  | zero => exact ⟨fun _ => Nat.lt_of_lt_of_le h (Nat.pow_le_pow_right (by decide) hm), fun _ => hm⟩
  | succ k ih =>
    have hdouble : Nat.pow 2 (k + 1) = Nat.pow 2 k + Nat.pow 2 k :=
      (Nat.mul_comm ..).trans (Nat.two_mul _)
    rw [hdouble, pow_ten_add] at h
    simp only [digitCountBelow]
    split
    next hlt => exact ih hlt hm
    next hge =>
      by_cases hle : m ≤ Nat.pow 2 k
      · have hcount := digitCountBelow_pos k (n / Nat.pow 10 (Nat.pow 2 k))
        have hpow : Nat.pow 10 m ≤ Nat.pow 10 (Nat.pow 2 k) := Nat.pow_le_pow_right (by decide) hle
        exact ⟨fun hc => absurd hc (by omega), fun hn => absurd (Nat.lt_of_lt_of_le hn hpow) hge⟩
      · obtain ⟨rest, rfl⟩ := Nat.exists_eq_add_of_le (Nat.le_of_not_le hle)
        rw [Nat.add_le_add_iff_left, pow_ten_add, Nat.mul_comm, ← Nat.div_lt_iff_lt_mul (pow_ten_pos _)]
        exact ih ((Nat.div_lt_iff_lt_mul (pow_ten_pos _)).mpr h) (by omega)

theorem digitCount_pos (n : Nat) : 0 < digitCount n :=
  digitCountBelow_pos _ n

/-- A number has as many digits as the least power of ten past it has zeros. -/
theorem digitCount_le_iff {n m : Nat} (hm : 0 < m) : digitCount n ≤ m ↔ n < Nat.pow 10 m := by
  refine digitCountBelow_le_iff ?_ hm
  have hlog : n.log2 + 1 ≤ Nat.pow 2 (n.log2.log2 + 1) := Nat.lt_log2_self
  have hself : n < Nat.pow 2 (n.log2 + 1) := Nat.lt_log2_self
  have hpow : Nat.pow 2 (n.log2 + 1) ≤ Nat.pow 2 (Nat.pow 2 (n.log2.log2 + 1)) :=
    Nat.pow_le_pow_right (by decide) hlog
  exact Nat.lt_of_lt_of_le hself (Nat.le_trans hpow (Nat.pow_le_pow_left (by decide) _))

theorem digitCount_mul_ten {n : Nat} (h : 0 < n) : digitCount (n * 10) = digitCount n + 1 := by
  have hten (m : Nat) : Nat.pow 10 (m + 1) = Nat.pow 10 m * 10 := rfl
  apply Nat.le_antisymm
  · rw [digitCount_le_iff (Nat.succ_pos _), hten]
    exact Nat.mul_lt_mul_of_pos_right ((digitCount_le_iff (digitCount_pos n)).mp (Nat.le_refl _)) (by decide)
  · have hlt := (digitCount_le_iff (digitCount_pos (n * 10))).mp (Nat.le_refl _)
    have hpos := digitCount_pos (n * 10)
    generalize digitCount (n * 10) = m at hlt hpos
    obtain ⟨m, rfl⟩ := Nat.exists_eq_add_of_le' hpos
    rw [hten] at hlt
    have hn : n < Nat.pow 10 m := Nat.lt_of_mul_lt_mul_right hlt
    have hm : 0 < m := by
      refine Nat.pos_of_ne_zero fun h0 => ?_
      rw [h0] at hn
      exact absurd hn (Nat.not_lt.mpr h)
    exact Nat.add_le_add_right ((digitCount_le_iff hm).mpr hn) 1

theorem digitCount_mul_pow {n : Nat} (h : 0 < n) (k : Nat) :
    digitCount (n * Nat.pow 10 k) = digitCount n + k := by
  induction k with
  | zero =>
    have hone : n * Nat.pow 10 0 = n := Nat.mul_one n
    rw [hone, Nat.add_zero]
  | succ k ih =>
    have hten : n * Nat.pow 10 (k + 1) = n * Nat.pow 10 k * 10 := (Nat.mul_assoc ..).symm
    rw [hten, digitCount_mul_ten (Nat.mul_pos h (pow_ten_pos k)), ih, Nat.add_assoc]

end RequestDoc.Natural

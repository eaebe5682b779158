/-!
Places in a source text. A place is a line and a column, both counted from one, and it moves over a
text one character at a time: a newline starts the next line, a tab is eight columns wide, a carriage
return and a byte order mark have no width, and every other character is one column wide.
-/

namespace RequestDoc

/-- A place in a text. -/
structure Position where
  line : Nat
  column : Nat
  deriving DecidableEq

namespace Position

/-- The place of a text's first character. -/
def first : Position := ⟨1, 1⟩

instance : Inhabited Position := ⟨first⟩

/-- The place that follows the character `c` standing at `p`. -/
def next (p : Position) (c : Char) : Position :=
  if c = '\n' then ⟨p.line + 1, 1⟩
  else if c = '\t' then ⟨p.line, p.column + 8⟩
  else if c = '\r' ∨ c = '\uFEFF' then p
  else ⟨p.line, p.column + 1⟩

/-- The place that follows the characters `cs` when the first of them stands at `p`. -/
def advance (p : Position) (cs : List Char) : Position :=
  cs.foldl next p

/-- A place is written as its line and its column with a colon between them. -/
def text (p : Position) : String :=
  toString p.line ++ ":" ++ toString p.column

/-! ### Moving over a text in parts -/

@[simp]
theorem advance_nil (p : Position) : p.advance [] = p := rfl

@[simp]
theorem advance_cons (p : Position) (c : Char) (cs : List Char) :
    p.advance (c :: cs) = (p.next c).advance cs := rfl

@[simp]
theorem advance_append (p : Position) (cs ds : List Char) :
    p.advance (cs ++ ds) = (p.advance cs).advance ds :=
  List.foldl_append

/-! ### Texts inside other texts -/

/-- The place `p` of a text, counted in a greater text in which the text starts at `start`. -/
def shift (p start : Position) : Position :=
  if p.line = 1 then ⟨start.line, start.column + p.column - 1⟩
  else ⟨start.line + p.line - 1, p.column⟩

/-- Lines and columns are counted from one. -/
structure Counted (p : Position) : Prop where
  line : 1 ≤ p.line
  column : 1 ≤ p.column

theorem counted_first : first.Counted :=
  ⟨Nat.le_refl 1, Nat.le_refl 1⟩

theorem Counted.next {p : Position} (h : p.Counted) (c : Char) : (p.next c).Counted := by
  obtain ⟨hl, hc⟩ := h
  unfold Position.next
  split
  · exact ⟨by simp, Nat.le_refl 1⟩
  · split
    · exact ⟨hl, Nat.le_trans hc (Nat.le_add_right ..)⟩
    · split
      · exact ⟨hl, hc⟩
      · exact ⟨hl, Nat.le_trans hc (Nat.le_add_right ..)⟩

@[simp]
theorem shift_first (start : Position) : first.shift start = start := by
  simp [shift, first]

theorem shift_next {p : Position} (h : p.Counted) (start : Position) (c : Char) :
    (p.next c).shift start = (p.shift start).next c := by
  obtain ⟨hl, hc⟩ := h
  by_cases h1 : p.line = 1
  · by_cases hn : c = '\n'
    · simp [next, shift, hn, h1]
    · by_cases ht : c = '\t'
      · simp [next, shift, ht, h1]
        omega
      · by_cases hr : c = '\r' ∨ c = '\uFEFF'
        · simp [next, shift, hn, ht, hr, h1]
        · simp [next, shift, hn, ht, hr, h1]
          omega
  · by_cases hn : c = '\n'
    · have h2 : p.line ≠ 0 := by omega
      simp [next, shift, hn, h1, h2]
      omega
    · by_cases ht : c = '\t'
      · simp [next, shift, ht, h1]
      · by_cases hr : c = '\r' ∨ c = '\uFEFF'
        · simp [next, shift, hn, ht, hr, h1]
        · simp [next, shift, hn, ht, hr, h1]

/-- Places of a text inside another text move as places of the text itself. -/
theorem shift_advance {p : Position} (h : p.Counted) (start : Position) (cs : List Char) :
    (p.advance cs).shift start = (p.shift start).advance cs := by
  induction cs generalizing p with
  | nil => rfl
  | cons c cs ih => rw [advance_cons, advance_cons, ih (h.next c), shift_next h]

/-! ### Reading order: by line, then by column -/

instance : LT Position where
  lt p q := p.line < q.line ∨ p.line = q.line ∧ p.column < q.column

instance : LE Position where
  le p q := p.line < q.line ∨ p.line = q.line ∧ p.column ≤ q.column

theorem lt_def {p q : Position} : p < q ↔ p.line < q.line ∨ p.line = q.line ∧ p.column < q.column :=
  Iff.rfl

theorem le_def {p q : Position} : p ≤ q ↔ p.line < q.line ∨ p.line = q.line ∧ p.column ≤ q.column :=
  Iff.rfl

instance (p q : Position) : Decidable (p < q) := decidable_of_iff' _ lt_def

instance (p q : Position) : Decidable (p ≤ q) := decidable_of_iff' _ le_def

theorem le_refl (p : Position) : p ≤ p :=
  Or.inr ⟨rfl, Nat.le_refl _⟩

theorem le_trans {p q r : Position} (h : p ≤ q) (k : q ≤ r) : p ≤ r := by
  simp only [le_def] at *
  omega

theorem lt_of_lt_of_le {p q r : Position} (h : p < q) (k : q ≤ r) : p < r := by
  simp only [le_def, lt_def] at *
  omega

theorem le_of_lt {p q : Position} (h : p < q) : p ≤ q := by
  simp only [le_def, lt_def] at *
  omega

theorem le_next (p : Position) (c : Char) : p ≤ p.next c := by
  unfold next
  split
  · simp [le_def]
  · split
    · simp [le_def]
    · split <;> simp [le_def]

theorem le_advance (p : Position) (cs : List Char) : p ≤ p.advance cs := by
  induction cs generalizing p with
  | nil => simp [le_def]
  | cons c cs ih => exact le_trans (le_next p c) (ih _)

/-- Only a carriage return and a byte order mark have no width. -/
theorem lt_next (p : Position) {c : Char} (hr : c ≠ '\r') (hmark : c ≠ '\uFEFF') : p < p.next c := by
  unfold next
  split
  · simp [lt_def]
  · split
    · simp [lt_def]
    · rw [if_neg (by simp [hr, hmark])]
      simp [lt_def]

theorem lt_advance_cons (p : Position) {c : Char} (hr : c ≠ '\r') (hmark : c ≠ '\uFEFF') (cs : List Char) :
    p < p.advance (c :: cs) :=
  lt_of_lt_of_le (lt_next p hr hmark) (le_advance _ cs)

/-- The places in reading order. -/
def sort (ps : List Position) : List Position :=
  ps.mergeSort fun p q => decide (p ≤ q)

end Position

end RequestDoc

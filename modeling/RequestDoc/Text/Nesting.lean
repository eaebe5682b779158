/-!
Brackets in a text. A list or an object opens with a bracket and closes with one; between the quotes of a
key a bracket is an ordinary character, and there a backslash takes the next character with it.
-/

namespace RequestDoc.Nesting

/-- Whether a place of a text lies outside quotes, inside them, or behind a backslash inside them. -/
inductive Side where
  | outside
  | inside
  | escaped
  deriving DecidableEq

/-- The side of the place behind a character. -/
def Side.next : Side → Char → Side
  | outside, c => if c = '"' then inside else outside
  | inside, c => if c = '"' then outside else if c = '\\' then escaped else inside
  | escaped, _ => inside

/-- A place of a text: its side and the number of open brackets around it. -/
structure State where
  side : Side
  level : Nat
  deriving DecidableEq

namespace State

/-- The state before a text. -/
def initial : State := ⟨.outside, 0⟩

/-- The state behind a character. -/
def next (s : State) (c : Char) : State where
  side := s.side.next c
  level :=
    if s.side ≠ .outside then s.level
    else if c = '[' ∨ c = '{' then s.level + 1
    else if c = ']' ∨ c = '}' then s.level - 1
    else s.level

/-- The greatest number of brackets that are open at once in a text that starts in a state. -/
def deepest (s : State) : List Char → Nat
  | [] => s.level
  | c :: cs => max s.level ((s.next c).deepest cs)

/-- The text up to the first bracket that more than `limit` brackets are open behind, with that bracket. -/
def overrun? (limit : Nat) (s : State) : List Char → Option (List Char)
  | [] => none
  | c :: cs =>
    if limit < (s.next c).level then some [c]
    else ((s.next c).overrun? limit cs).map (c :: ·)

theorem level_le_deepest (s : State) (cs : List Char) : s.level ≤ s.deepest cs := by
  cases cs with
  | nil => exact Nat.le_refl _
  | cons c cs => exact Nat.le_max_left _ _

/-- A text overruns a limit exactly if more brackets are open in it at once. -/
theorem overrun?_eq_none_iff {limit : Nat} {s : State} {cs : List Char} (h : s.level ≤ limit) :
    s.overrun? limit cs = none ↔ s.deepest cs ≤ limit := by
  induction cs generalizing s with
  | nil => simp [overrun?, deepest, h]
  | cons c cs ih =>
    rw [overrun?, deepest]
    split
    next hover =>
      have := (s.next c).level_le_deepest cs
      simp only [reduceCtorEq, false_iff]
      omega
    next hwithin =>
      rw [Option.map_eq_none_iff, ih (by omega)]
      omega

end State

/-- The greatest number of brackets that are open at once in a text. -/
def deepest (cs : List Char) : Nat :=
  State.initial.deepest cs

end RequestDoc.Nesting

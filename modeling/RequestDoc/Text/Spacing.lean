import RequestDoc.Text.Character

/-!
Words with blanks behind them. Blanks may follow every word of a text and mean nothing, so a text is told
by its words, each of them spaced. Items are separated by spaced commas.
-/

namespace RequestDoc

/-- The characters are blanks. -/
def Blanks (w : List Char) : Prop :=
  ∀ c ∈ w, Character.isBlank c = true

instance (w : List Char) : Decidable (Blanks w) :=
  List.decidableBAll (fun c => Character.isBlank c = true) w

/-- The text is the word with blanks behind it. -/
def Spaced (word text : List Char) : Prop :=
  ∃ w, Blanks w ∧ text = word ++ w

/-- The text is made of the words in order, each with blanks behind it. -/
inductive SpacedAll : List (List Char) → List Char → Prop where
  | nil : SpacedAll [] []
  | cons {word text : List Char} {words : List (List Char)} {rest : List Char} :
      Spaced word text → SpacedAll words rest → SpacedAll (word :: words) (text ++ rest)

/-- The text is made of the items in order, with a spaced comma between each two of them. -/
inductive Separated : List (List Char) → List Char → Prop where
  | nil : Separated [] []
  | one (item : List Char) : Separated [item] item
  | more {item comma next : List Char} {items : List (List Char)} {rest : List Char} :
      Spaced [','] comma → Separated (next :: items) rest →
      Separated (item :: next :: items) (item ++ comma ++ rest)

theorem Blanks.nil : Blanks [] := by
  simp [Blanks]

theorem Blanks.append {v w : List Char} (hv : Blanks v) (hw : Blanks w) : Blanks (v ++ w) := by
  intro c hc
  rcases List.mem_append.mp hc with h | h
  · exact hv c h
  · exact hw c h

/-- A word is spaced by no blanks. -/
theorem Spaced.self (word : List Char) : Spaced word word :=
  ⟨[], Blanks.nil, (List.append_nil word).symm⟩

theorem Spaced.append {word text w : List Char} (h : Spaced word text) (hw : Blanks w) :
    Spaced word (text ++ w) := by
  obtain ⟨v, hv, rfl⟩ := h
  exact ⟨v ++ w, hv.append hw, List.append_assoc ..⟩

theorem SpacedAll.flatten (words : List (List Char)) : SpacedAll words words.flatten := by
  induction words with
  | nil => exact .nil
  | cons word words ih => exact .cons (.self word) ih

theorem SpacedAll.append {words words' : List (List Char)} {text text' : List Char}
    (h : SpacedAll words text) (h' : SpacedAll words' text') :
    SpacedAll (words ++ words') (text ++ text') := by
  induction h with
  | nil => exact h'
  | cons hw _ ih =>
    rw [List.append_assoc]
    exact .cons hw ih

end RequestDoc

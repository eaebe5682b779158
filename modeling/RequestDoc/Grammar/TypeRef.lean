import RequestDoc.Text.Spacing
import RequestDoc.TypeRef

/-!
The grammar of type references. A reference is told by its words, and a text writes a reference if it is
made of these words with blanks behind them.
-/

namespace RequestDoc

/-- The characters of a name: letters, digits and underscores, not starting with a digit. -/
inductive IsName : List Char → Prop where
  | mk {c : Char} {cs : List Char} :
      Character.startsName c = true → (∀ d ∈ cs, Character.continuesName d = true) → IsName (c :: cs)

namespace TypeRef

/-- The words of the mark of a required type. -/
def markWords (required : Bool) : List (List Char) :=
  if required then [['!']] else []

/-- The words of a reference. -/
def words : TypeRef → List (List Char)
  | named name required => name.text.toList :: markWords required
  | list item required => ['['] :: (item.words ++ [']'] :: markWords required)

/-- The words of a mark are its characters. -/
theorem flatten_markWords (required : Bool) : (markWords required).flatten = mark required := by
  cases required <;> rfl

/-- The printed reference is its words without blanks. -/
theorem chars_eq (t : TypeRef) : t.chars = t.words.flatten := by
  induction t with
  | named name required => simp [chars, words, flatten_markWords]
  | list item required ih => simp [chars, words, flatten_markWords, ih]

end TypeRef

namespace Grammar

/-- The text writes the reference: the type has a name, and the text is made of the reference's words. -/
def Reference (text : List Char) (t : TypeRef) : Prop :=
  IsName t.baseName.text.toList ∧ SpacedAll t.words text

/-- A reference to a type with a name is written by its printed text. -/
theorem reference_chars {t : TypeRef} (h : IsName t.baseName.text.toList) : Reference t.chars t :=
  ⟨h, t.chars_eq ▸ SpacedAll.flatten t.words⟩

end Grammar

end RequestDoc

import RequestDoc.Number.Numeral.WellFormed
import RequestDoc.Text.Quoted.Body
import RequestDoc.Text.Spacing
import RequestDoc.Token
import RequestDoc.Value.Basic

/-!
The grammar of literals, said without a parser: which texts are literals, and which values they write.
Every word of a literal may have blanks behind it.
-/

namespace RequestDoc.Grammar

/-- The text is the token with blanks behind it. -/
def Punctuation (t : Token) (text : List Char) : Prop :=
  Spaced t.text.toList text

/-- The text is a key in quotes with blanks behind it. -/
def Key (text : List Char) (key : String) : Prop :=
  ∃ raw, Quoted.Body raw key.toList ∧ Spaced ('"' :: (raw ++ ['"'])) text

/-- A member of an object as it is written: the text of its key, of the colon and of its value. -/
structure Member where
  keyText : List Char
  key : String
  colon : List Char
  valueText : List Char
  value : Value

/-- The whole text of a member. -/
def Member.text (m : Member) : List Char :=
  m.keyText ++ m.colon ++ m.valueText

/-- The key and the value of a member. -/
def Member.pair (m : Member) : String × Value :=
  (m.key, m.value)

/-- The text writes the value. Of members with the same key the last one counts, at the place of the
first. -/
inductive Literal : List Char → Value → Prop where
  | number {n : Numeral} {text : List Char} :
      n.WellFormed → Spaced n.text text → Literal text (.number n.value)
  | boolean {b : Bool} {text : List Char} :
      Punctuation (if b then .trueWord else .falseWord) text → Literal text (.boolean b)
  | null {text : List Char} : Punctuation .nullWord text → Literal text .null
  | list {left inner right : List Char} (items : List (List Char × Value)) :
      Punctuation .openBracket left → (∀ item ∈ items, Literal item.1 item.2) →
      Separated (items.map Prod.fst) inner → Punctuation .closeBracket right →
      Literal (left ++ inner ++ right) (.list (items.map Prod.snd))
  | object {left inner right : List Char} (members : List Member) :
      Punctuation .openBrace left → (∀ m ∈ members, Key m.keyText m.key ∧ Punctuation .colon m.colon) →
      (∀ m ∈ members, Literal m.valueText m.value) →
      Separated (members.map Member.text) inner → Punctuation .closeBrace right →
      Literal (left ++ inner ++ right) (.object (.ofList (members.map Member.pair)))

end RequestDoc.Grammar

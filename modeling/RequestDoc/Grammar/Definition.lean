import RequestDoc.Document.Basic
import RequestDoc.Grammar.Literal
import RequestDoc.Grammar.TypeRef

/-!
The grammar of definitions. The place where a text starts takes part, because operations and variables
know their places. A keyword is not followed by a character that a name may go on with, so a blank stands
between the keyword of a query and its name.
-/

namespace RequestDoc.Grammar

/-- No name goes on into the text. -/
def NameEnds (text : List Char) : Prop :=
  ∀ c ∈ text.head?, Character.continuesName c = false

/-- The text is the name with blanks behind it. -/
def Named (text : List Char) (name : String) : Prop :=
  IsName name.toList ∧ Spaced name.toList text

/-- The text is a default value: nothing, or an equals sign and a literal. -/
inductive Default : List Char → Option Value → Prop where
  | none : Default [] none
  | some {equals text : List Char} {v : Value} :
      Punctuation .equals equals → Literal text v → Default (equals ++ text) (some v)

/-- The text, which starts at a place, declares the variable. -/
inductive Declaration (place : Position) : List Char → Variable → Prop where
  | mk {dollar nameText colon typeText defaultText : List Char} {name : String} {type : TypeRef}
      {value : Option Value} :
      Punctuation .dollar dollar → Named nameText name → Punctuation .colon colon →
      Reference typeText type → Default defaultText value →
      Declaration place (dollar ++ nameText ++ colon ++ typeText ++ defaultText)
        ⟨place, ⟨name⟩, type, value⟩

/-- The text, which starts at a place, declares the variables, with commas between the declarations. -/
inductive Declarations : Position → List Char → List Variable → Prop where
  | none {place : Position} : Declarations place [] []
  | one {place : Position} {text : List Char} {v : Variable} :
      Declaration place text v → Declarations place text [v]
  | more {place : Position} {text comma rest : List Char} {v next : Variable} {vs : List Variable} :
      Declaration place text v → Punctuation .comma comma →
      Declarations (place.advance (text ++ comma)) rest (next :: vs) →
      Declarations place (text ++ comma ++ rest) (v :: next :: vs)

/-- The text, which starts at a place, is what may stand between the name and the brace of a query:
nothing, or declarations in parentheses. -/
inductive Parameters (place : Position) : List Char → List Variable → Prop where
  | none : Parameters place [] []
  | some {left inner right : List Char} {vs : List Variable} :
      Punctuation .openParen left → Declarations (place.advance left) inner vs →
      Punctuation .closeParen right → Parameters place (left ++ inner ++ right) vs

/-- The text, which starts at a place, is a query and makes the operation. -/
inductive Query (place : Position) : List Char → Operation → Prop where
  | shorthand {left nameText right : List Char} {name : String} :
      Punctuation .openBrace left → Named nameText name → Punctuation .closeBrace right →
      Query place (left ++ nameText ++ right) (.ofHead place .query (some ⟨name⟩) [])
  | declared {keyword nameText parameters brace : List Char} {name : String} {vs : List Variable} :
      Punctuation .query keyword → keyword ≠ Token.query.text.toList → Named nameText name →
      Parameters (place.advance (keyword ++ nameText)) parameters vs → Punctuation .openBrace brace →
      Query place (keyword ++ nameText ++ parameters ++ brace) (.ofHead place .query (some ⟨name⟩) vs)

/-- The text, which starts at a place, is the definitions followed by the rest. -/
inductive Definitions : Position → List Char → List Definition → List Char → Prop where
  | none {place : Position} {rest : List Char} : Definitions place rest [] rest
  | query {place : Position} {text more rest : List Char} {op : Operation} {ds : List Definition} :
      Query place text op → Definitions (place.advance text) more ds rest →
      Definitions place (text ++ more) (.query op :: ds) rest
  | mutation {place : Position} {w more rest : List Char} {ds : List Definition} :
      Blanks w → NameEnds (w ++ more) →
      Definitions (place.advance (Token.mutation.text.toList ++ w)) more ds rest →
      Definitions place (Token.mutation.text.toList ++ w ++ more) (.mutation place :: ds) rest

/-- A keyword starts the text. -/
def KeywordStarts (t : Token) (text : List Char) : Prop :=
  ∃ rest, text = t.text.toList ++ rest ∧ NameEnds rest

/-- The text starts with what a definition starts with. -/
def DefinitionStarts (text : List Char) : Prop :=
  text.head? = some '{' ∨ KeywordStarts .query text ∨ KeywordStarts .mutation text

end RequestDoc.Grammar

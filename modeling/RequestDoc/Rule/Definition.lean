import RequestDoc.Document.Basic
import RequestDoc.Rule.Literal
import RequestDoc.Rule.TypeRef

/-!
Reading definitions. A query is a name in braces, or the keyword with a name, declarations of variables and
an opening brace; what follows that brace belongs to no definition. Of a mutation only the keyword is read,
and no operation comes of it.
-/

namespace RequestDoc

namespace Rule

variable (s : Strategy)

/-- The default value of a variable, with its equals sign. -/
def defaultValue : Rule Value := do
  token .equals
  literal s

/-- The declaration of a variable. -/
def declaration : Rule Variable := do
  let place ← position
  token .dollar
  let name ← lexeme Lexeme.name
  token .colon
  let type ← typeRef s
  let value ← maybe s.retry (defaultValue s)
  return ⟨place, ⟨name⟩, type, value⟩

/-- The declarations of an operation's variables, in parentheses. -/
def declarations : Rule (List Variable) := do
  token .openParen
  let vs ← sepBy s.retry (declaration s) (token .comma)
  token .closeParen
  return vs

/-- A query of one form. -/
def queryForm : QueryForm → Rule Operation
  | .shorthand => do
    let place ← position
    token .openBrace
    let name ← lexeme Lexeme.name
    token .closeBrace
    return .ofHead place .query (some ⟨name⟩) []
  | .declared => do
    let place ← position
    token .query
    let name ← lexeme Lexeme.name
    let vs ← maybe s.retry (declarations s)
    token .openBrace
    return .ofHead place .query (some ⟨name⟩) (vs.getD [])

/-- A query. -/
def query : Rule Operation :=
  choice s.retry (s.queryForms.map (queryForm s))

/-- A definition of one form. -/
def definitionForm : DefinitionForm → Rule Definition
  | .query => do
    let op ← query s
    return .query op
  | .mutation => do
    let place ← position
    token .mutation
    return .mutation place

/-- A definition. -/
def definition : Rule Definition :=
  choice s.retry (s.definitionForms.map (definitionForm s))

end Rule

end RequestDoc

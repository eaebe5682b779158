import RequestDoc.Rule.Basic

/-!
Strategies: in which order the forms of a construct are tried, and after which failures the next form is
tried at all. The standard strategy goes on only after a failure at the very start of a form. Every form is
told by its first lexeme, so nothing is lost, and an error stays where the text went wrong.
-/

namespace RequestDoc

/-- The forms of a literal. -/
inductive LiteralForm where
  | number
  | object
  | list
  | boolean (b : Bool)
  | null
  deriving DecidableEq

/-- The forms of a type reference. -/
inductive TypeForm where
  | named
  | list
  deriving DecidableEq

/-- The forms of a query: a name in braces, or the keyword with a name and what it declares. -/
inductive QueryForm where
  | shorthand
  | declared
  deriving DecidableEq

/-- The forms of a definition. -/
inductive DefinitionForm where
  | query
  | mutation
  deriving DecidableEq

/-- How the forms of each construct are tried. -/
structure Strategy where
  retry : Retry
  literalForms : List LiteralForm
  typeForms : List TypeForm
  queryForms : List QueryForm
  definitionForms : List DefinitionForm

namespace Strategy

/-- Goes on after a mismatch at the start of a form. -/
def standard : Strategy where
  retry e start := e.failsAt start
  literalForms := [.number, .object, .list, .boolean true, .boolean false, .null]
  typeForms := [.named, .list]
  queryForms := [.shorthand, .declared]
  definitionForms := [.query, .mutation]

/-- Goes on after every mismatch, wherever it stands. -/
def backtracking : Strategy :=
  { standard with retry := fun e _ => e.isMismatch }

/-- The second strategy tries the same forms in other orders. -/
structure Reorders (s t : Strategy) : Prop where
  retry : s.retry = t.retry
  literalForms : s.literalForms.Perm t.literalForms
  typeForms : s.typeForms.Perm t.typeForms
  queryForms : s.queryForms.Perm t.queryForms
  definitionForms : s.definitionForms.Perm t.definitionForms

end Strategy

end RequestDoc

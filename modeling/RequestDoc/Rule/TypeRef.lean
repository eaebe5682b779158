import RequestDoc.Rule.Strategy
import RequestDoc.TypeRef

/-!
Reading type references. A reference is a name or another reference in brackets, and an exclamation mark
may follow either.
-/

namespace RequestDoc.Rule

variable (s : Strategy)

/-- A reference of one form. The reference inside a list is read by `item`. -/
def typeForm (item : Rule TypeRef) : TypeForm → Rule TypeRef
  | .named => do
    let name ← lexeme Lexeme.name
    let required ← tokenIf .bang
    return .named ⟨name⟩ required
  | .list => do
    token .openBracket
    nested do
      let t ← item
      token .closeBracket
      let required ← tokenIf .bang
      return .list t required

/-- A reference with less than `levels` brackets around its name. -/
def typeRefWithin : Nat → Rule TypeRef
  | 0, c => .error (.tooDeep c.depthLimit c.position)
  | levels + 1, c => choice s.retry (s.typeForms.map (typeForm (typeRefWithin levels))) c

/-- A reference. The brackets that may still be opened bound its nesting. -/
def typeRef : Rule TypeRef := fun c =>
  typeRefWithin s (c.depthLimit - c.depth + 1) c

end RequestDoc.Rule

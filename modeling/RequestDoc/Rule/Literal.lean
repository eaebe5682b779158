import RequestDoc.Rule.Strategy
import RequestDoc.Value.Basic

/-!
Reading literals. A literal is a number, an object with quoted keys, a list, or one of the keywords. A
quoted text alone is no literal. Of members with the same key the last one counts.
-/

namespace RequestDoc.Rule

variable (s : Strategy)

/-- A member of an object whose values are read by `value`. -/
def member (value : Rule Value) : Rule (String × Value) := do
  let key ← lexeme Lexeme.quoted
  token .colon
  let v ← value
  return (key, v)

/-- A list whose items are read by `value`. -/
def list (value : Rule Value) : Rule Value := do
  token .openBracket
  nested do
    let items ← sepBy s.retry value (token .comma)
    token .closeBracket
    return .list items

/-- An object whose values are read by `value`. -/
def object (value : Rule Value) : Rule Value := do
  token .openBrace
  nested do
    let members ← sepBy s.retry (member value) (token .comma)
    token .closeBrace
    return .object (.ofList members)

/-- A literal of one form. The values inside it are read by `value`. -/
def literalForm (value : Rule Value) : LiteralForm → Rule Value
  | .number => do
    let x ← lexeme Lexeme.number
    return .number x
  | .object => object s value
  | .list => list s value
  | .boolean b => do
    token (if b then .trueWord else .falseWord)
    return .boolean b
  | .null => do
    token .nullWord
    return .null

/-- A literal with less than `levels` brackets around any of its parts. -/
def literalWithin : Nat → Rule Value
  | 0, c => .error (.tooDeep c.depthLimit c.position)
  | levels + 1, c => choice s.retry (s.literalForms.map (literalForm s (literalWithin levels))) c

/-- A literal. The brackets that may still be opened bound its nesting. -/
def literal : Rule Value := fun c =>
  literalWithin s (c.depthLimit - c.depth + 1) c

end RequestDoc.Rule

import RequestDoc.Document.Basic
import RequestDoc.Error.ParseError

/-!
Documents inside greater texts. What was read from a text, or what went wrong in it, is moved to the place
and the byte at which the text starts in a greater one.
-/

namespace RequestDoc

/-- A declaration in a text that starts at a place of a greater one. -/
def Variable.shift (v : Variable) (start : Position) : Variable :=
  { v with position := v.position.shift start }

/-- An operation in a text that starts at a place of a greater one. -/
def Operation.shift (op : Operation) (start : Position) : Operation :=
  { op with
    position := op.position.shift start
    declared := op.declared.map fun v => v.shift start }

/-- A definition in a text that starts at a place of a greater one. -/
def Definition.shift (definition : Definition) (start : Position) : Definition :=
  match definition with
  | query op => query (op.shift start)
  | mutation position => mutation (position.shift start)

/-- An error in a text that starts at a byte and a place of a greater one. -/
def ParseError.shift (e : ParseError) (bytes : Nat) (start : Position) : ParseError :=
  match e with
  | textTooLarge limit size => textTooLarge limit size
  | tooDeep limit position => tooDeep limit (position.shift start)
  | mismatch offset position expected => mismatch (bytes + offset) (position.shift start) expected

end RequestDoc

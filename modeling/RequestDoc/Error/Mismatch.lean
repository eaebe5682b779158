import RequestDoc.Text.Position

/-!
Mismatches: a lexeme was expected at a place and something else stands there.
-/

namespace RequestDoc

/-- What was expected, and where: at a byte offset and at a place. -/
structure Mismatch where
  offset : Nat
  position : Position
  expected : String
  deriving DecidableEq

/-- The text of a mismatch. -/
def Mismatch.message (m : Mismatch) : String :=
  "expected " ++ m.expected ++ " at " ++ m.position.text

end RequestDoc

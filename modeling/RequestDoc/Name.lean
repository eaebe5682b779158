/-!
Names. The names of types, of operations and of variables are texts that do not mix. They are ordered by
code points.
-/

namespace RequestDoc

/-- What a name names. -/
inductive NameKind where
  | type
  | operation
  | variable
  deriving DecidableEq

/-- A name of one kind. -/
structure Name (kind : NameKind) where
  text : String
  deriving DecidableEq

abbrev TypeName := Name .type

abbrev OperationName := Name .operation

/-- The name of a variable, without its dollar sign. -/
abbrev VariableName := Name .variable

namespace Name

variable {kind : NameKind}

instance : LE (Name kind) where
  le a b := a.text ≤ b.text

instance (a b : Name kind) : Decidable (a ≤ b) :=
  inferInstanceAs (Decidable (a.text ≤ b.text))

/-- The names in order. -/
def sort (names : List (Name kind)) : List (Name kind) :=
  names.mergeSort fun a b => decide (a ≤ b)

end Name

end RequestDoc

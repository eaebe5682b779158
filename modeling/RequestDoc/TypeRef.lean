import RequestDoc.Name

/-!
Type references. A reference names a type or is a list of what another reference stands for, and either
may be required, which is written as an exclamation mark after it: `[Int!]!`.
-/

namespace RequestDoc

/-- A reference to a type. -/
inductive TypeRef where
  | named (name : TypeName) (required : Bool)
  | list (item : TypeRef) (required : Bool)
  deriving DecidableEq

namespace TypeRef

/-- What is referred to cannot be missing. -/
def isRequired : TypeRef → Bool
  | named _ required => required
  | list _ required => required

/-- What is referred to is a list. -/
def isList : TypeRef → Bool
  | named _ _ => false
  | list _ _ => true

/-- The name of the type inside all lists. -/
def baseName : TypeRef → TypeName
  | named name _ => name
  | list item _ => item.baseName

/-- How many lists lie around the named type. -/
def depth : TypeRef → Nat
  | named _ _ => 0
  | list item _ => item.depth + 1

/-- The mark of a required type. -/
def mark (required : Bool) : List Char :=
  if required then ['!'] else []

/-- The printed characters of a reference. -/
def chars : TypeRef → List Char
  | named name required => name.text.toList ++ mark required
  | list item required => '[' :: (item.chars ++ ']' :: mark required)

/-- The printed text of a reference. -/
def text (t : TypeRef) : String :=
  String.ofList t.chars

end TypeRef

end RequestDoc

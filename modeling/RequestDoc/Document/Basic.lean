import RequestDoc.Text.Position
import RequestDoc.TypeRef
import RequestDoc.Value.Basic

/-!
Request documents: the operations that a text defines, in order, with the variables they declare.
Directives, selection sets and fragments are not read, so they have no values.
-/

namespace RequestDoc

/-- The declaration of a variable. Its place is that of the dollar sign. -/
structure Variable where
  position : Position
  name : VariableName
  type : TypeRef
  defaultValue : Option Value

/-- What an operation asks for. -/
inductive OperationKind where
  | query
  | mutation
  | subscription
  deriving DecidableEq

/-- An operation and the variables that it declares. Its place is that of its first character. -/
structure Operation where
  position : Position
  kind : OperationKind
  name : Option OperationName
  declared : List Variable
  directives : Option Empty
  selectionSet : Option Empty

/-- What stands at the top of a document: a query with its operation, or a mutation with its place. No
operation comes of a mutation. -/
inductive Definition where
  | query (op : Operation)
  | mutation (position : Position)

/-- What a text defines. -/
structure Document where
  operations : List Operation
  fragments : List Empty

namespace Variable

/-- Equality of declarations; default values are compared as values. -/
def equal (x y : Variable) : Bool :=
  x.position == y.position && x.name == y.name && x.type == y.type &&
    match x.defaultValue, y.defaultValue with
    | some v, some w => v.equal w
    | none, none => true
    | _, _ => false

end Variable

namespace Operation

/-- An operation of which nothing but its head is known. -/
def ofHead (position : Position) (kind : OperationKind) (name : Option OperationName)
    (declared : List Variable) : Operation :=
  ⟨position, kind, name, declared, none, none⟩

/-- The first variable of an operation with the given name. -/
def find? (op : Operation) (name : String) : Option Variable :=
  op.declared.find? fun v => v.name.text == name

/-- Equality of operations, their places included. -/
def equal (x y : Operation) : Bool :=
  x.position == y.position && x.kind == y.kind && x.name == y.name &&
    x.declared.isEqv y.declared Variable.equal

end Operation

namespace Definition

/-- The operation that a definition makes. -/
def operation? : Definition → Option Operation
  | query op => some op
  | mutation _ => none

end Definition

namespace Document

/-- A document that defines nothing. -/
def empty : Document := ⟨[], []⟩

/-- A document with the given operations. -/
def ofOperations (operations : List Operation) : Document := ⟨operations, []⟩

/-- The document that definitions make. -/
def ofDefinitions (definitions : List Definition) : Document :=
  ofOperations (definitions.filterMap Definition.operation?)

/-- Equality of documents, the places of their operations included. -/
def equal (x y : Document) : Bool :=
  x.operations.isEqv y.operations Operation.equal

end Document

end RequestDoc

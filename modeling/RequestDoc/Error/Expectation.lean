/-!
Expectations: the labels of everything that could have stood where parsing stopped, in the order in
which they were tried. Merging adds the labels that are new.
-/

namespace RequestDoc

/-- The labels of what was expected. -/
structure Expectation where
  labels : List String
  deriving DecidableEq

namespace Expectation

/-- Nothing was expected. -/
def nothing : Expectation := ⟨[]⟩

/-- One thing was expected. -/
def one (label : String) : Expectation := ⟨[label]⟩

/-- A label is among those expected. -/
def contains (e : Expectation) (label : String) : Bool :=
  e.labels.contains label

/-- Adds a label at the end unless it is there. -/
def add (e : Expectation) (label : String) : Expectation :=
  if e.contains label then e else ⟨e.labels ++ [label]⟩

/-- Adds the labels of another expectation that are not there yet. -/
def merge (e f : Expectation) : Expectation :=
  f.labels.foldl add e

/-- The text of an expectation. -/
def message (e : Expectation) : String :=
  match e.labels with
  | [] => "nothing"
  | [label] => label
  | labels => "one of " ++ ", ".intercalate labels

end Expectation

end RequestDoc

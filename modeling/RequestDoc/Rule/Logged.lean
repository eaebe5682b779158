import RequestDoc.Document.Log
import RequestDoc.Rule.Definition

/-!
Rules with a log. The rules of a document leave records of what they do. A record is left as soon as what it tells of
was done, so it stays in the log when something else fails later or when another way is tried.
-/

namespace RequestDoc

/-- A rule that adds records to a log, which has the last one first. -/
abbrev LoggedRule (α : Type) := StateT Cursor (ExceptT ParseError (StateM (List LogRecord))) α

namespace LoggedRule

variable {α : Type}

/-- The rule, which leaves no record. -/
def silent (rule : Rule α) : LoggedRule α := fun c log =>
  (rule c, log)

/-- Leaves a record. -/
def report (r : LogRecord) : LoggedRule Unit := fun c log =>
  (.ok ((), c), r :: log)

/-- Tries the rules in order at the same cursor. `failure` holds what the rules before them expected. -/
def firstOf (retry : Retry) (failure : Option ParseError) : List (LoggedRule α) → LoggedRule α
  | [], c, log => (.error (failure.getD (.ofMismatch (c.mismatch "alternative"))), log)
  | rule :: rules, c, log =>
    match rule c log with
    | (.ok result, log) => (.ok result, log)
    | (.error e, log) =>
      if retry e c.offset then firstOf retry (some ((failure.map (·.merge e)).getD e)) rules c log
      else (.error e, log)

/-- The first of the rules that succeeds. -/
def choice (retry : Retry) (rules : List (LoggedRule α)) : LoggedRule α :=
  firstOf retry none rules

/-- Reads on from the cursor, with `items` read before, last first. -/
def manyFrom (retry : Retry) (rule : LoggedRule α) (items : List α) (c : Cursor) (log : List LogRecord) :
    Except ParseError (List α × Cursor) × List LogRecord :=
  match rule c log with
  | (.ok (item, next), log) =>
    if next.left < c.left then manyFrom retry rule (item :: items) next log
    else (.ok (items.reverse, c), log)
  | (.error e, log) => (if retry e c.offset then .ok (items.reverse, c) else .error e, log)
termination_by c.left

/-- The rule as often as it goes. -/
def many (retry : Retry) (rule : LoggedRule α) : LoggedRule (List α) :=
  manyFrom retry rule []

variable (s : Strategy)

/-- A definition of one form. -/
def definitionForm : DefinitionForm → LoggedRule Definition
  | .query => do
    let op ← silent (Rule.query s)
    report (.query op.name op.position)
    return .query op
  | .mutation => do
    let place ← silent Rule.position
    silent (Rule.token .mutation)
    report (.mutation place)
    return .mutation place

/-- A definition. -/
def definition : LoggedRule Definition :=
  choice s.retry (s.definitionForms.map (definitionForm s))

/-- The definitions of a text, as a document. -/
def document : LoggedRule Document := do
  let definitions ← many s.retry (definition s)
  let c ← get
  if !c.atEnd then
    report (.unread c.left c.position)
  let doc := Document.ofDefinitions definitions
  report (.finished doc.operations.length)
  return doc

end LoggedRule

end RequestDoc

import RequestDoc.Name
import RequestDoc.Text.Position

/-!
Records of the log of a parse: a query was read, a mutation was skipped, some of the text was left unread, and
the parse has finished.
-/

namespace RequestDoc

/-- How much a record matters. -/
inductive LogLevel where
  | trace
  | debug
  deriving DecidableEq

/-- What happened during a parse. -/
inductive LogRecord where
  | query (name : Option OperationName) (position : Position)
  | mutation (position : Position)
  | unread (bytes : Nat) (position : Position)
  | finished (operations : Nat)
  deriving DecidableEq

namespace LogRecord

/-- The level of a record. -/
def level : LogRecord → LogLevel
  | query .. | finished _ => .trace
  | mutation _ | unread .. => .debug

/-- The text of a record. -/
def message : LogRecord → String
  | query name position =>
    let shown := match name with
      | some name => "Some(\"" ++ name.text ++ "\")"
      | none => "None"
    "parsed query " ++ shown ++ " at " ++ position.text
  | mutation position =>
    "skipping mutation at " ++ position.text ++ ": mutations do not produce operations"
  | unread bytes position =>
    "ignoring " ++ toString bytes ++ " bytes of trailing input at " ++ position.text
  | finished operations => "parsed document with " ++ toString operations ++ " operation(s)"

end LogRecord

end RequestDoc

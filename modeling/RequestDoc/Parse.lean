import RequestDoc.Rule.Logged

/-!
Parsing whole texts. A literal and a type reference take up the whole text, blanks around them allowed.
A document ends before the first place where no definition starts, and what follows is ignored.
-/

namespace RequestDoc

namespace Value

/-- Parses a literal by a strategy. -/
def parseBy (s : Strategy) (limits : Limits) (text : String) : Except ParseError Value :=
  (Rule.literal s).parse limits text

/-- Parses a literal. -/
def parse (limits : Limits) (text : String) : Except ParseError Value :=
  parseBy .standard limits text

end Value

namespace TypeRef

/-- Parses a type reference by a strategy. -/
def parseBy (s : Strategy) (limits : Limits) (text : String) : Except ParseError TypeRef :=
  (Rule.typeRef s).parse limits text

/-- Parses a type reference. -/
def parse (limits : Limits) (text : String) : Except ParseError TypeRef :=
  parseBy .standard limits text

end TypeRef

namespace Document

/-- Reads the definitions of a text: those that were read, and the cursor behind them or the error that
ended the reading. -/
def read (s : Strategy) (limits : Limits) (text : String) : List Definition × Except ParseError Cursor :=
  match Cursor.open? limits text with
  | .ok c => Rule.collect s.retry (Rule.definition s) c
  | .error e => ([], .error e)

/-- What a reading of a text makes of it. -/
def ofReading : List Definition × Except ParseError Cursor → Except ParseError Document
  | (definitions, .ok _) => .ok (ofDefinitions definitions)
  | (_, .error e) => .error e

/-- Parses a document by a strategy. -/
def parseBy (s : Strategy) (limits : Limits) (text : String) : Except ParseError Document :=
  ofReading (read s limits text)

/-- Parses a document. -/
def parse (limits : Limits) (text : String) : Except ParseError Document :=
  parseBy .standard limits text

/-- Parses a document and keeps the log of the parse. -/
def parseLogged (limits : Limits) (text : String) : List LogRecord × Except ParseError Document :=
  match Cursor.open? limits text with
  | .ok c =>
    let (outcome, log) := LoggedRule.document .standard c []
    (log.reverse, outcome.map Prod.fst)
  | .error e => ([], .error e)

end Document

end RequestDoc

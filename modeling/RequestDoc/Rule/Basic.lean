import RequestDoc.Lexeme

/-!
Rules. A rule reads something at a cursor and moves the cursor behind it, or fails. Rules are put
together from lexemes in sequence, by choice and by repetition. Where one way of reading fails and another
one could be tried, a condition on the error and on the offset where the failed way started decides
whether it is tried.
-/

namespace RequestDoc

/-- A way of reading that moves a cursor or fails. -/
abbrev Rule (α : Type) := StateT Cursor (Except ParseError) α

/-- Whether another way may be tried after an error of a way that started at an offset. -/
abbrev Retry := ParseError → Nat → Bool

namespace Rule

variable {α β : Type}

/-- Reads one lexeme. -/
def lexeme (read : Lexeme α) : Rule α := fun c =>
  match read c with
  | .ok result => .ok result
  | .error m => .error (.ofMismatch m)

/-- Reads a token. -/
def token (t : Token) : Rule Unit :=
  lexeme (Lexeme.token t)

/-- Reads a token if it comes next, and tells whether it did. -/
def tokenIf (t : Token) : Rule Bool := fun c =>
  match Lexeme.token t c with
  | .ok ((), next) => .ok (true, next)
  | .error _ => .ok (false, c)

/-- The place of the cursor. -/
def position : Rule Position := fun c =>
  .ok (c.position, c)

/-- Tries the rules in order at the same cursor. `failure` holds what the rules before them expected. -/
def firstOf (retry : Retry) (failure : Option ParseError) : List (Rule α) → Rule α
  | [], c => .error (failure.getD (.ofMismatch (c.mismatch "alternative")))
  | rule :: rules, c =>
    match rule c with
    | .ok result => .ok result
    | .error e =>
      if retry e c.offset then firstOf retry (some ((failure.map (·.merge e)).getD e)) rules c
      else .error e

/-- The first of the rules that succeeds. If all fail and may be followed by another, their expectations
are merged. -/
def choice (retry : Retry) (rules : List (Rule α)) : Rule α :=
  firstOf retry none rules

/-- The rule, or nothing. -/
def maybe (retry : Retry) (rule : Rule α) : Rule (Option α) := fun c =>
  match rule c with
  | .ok (value, next) => .ok (some value, next)
  | .error e => if retry e c.offset then .ok (none, c) else .error e

/-- Reads on from the cursor, with `items` read before, last first. -/
def collectFrom (retry : Retry) (rule : Rule α) (items : List α) (c : Cursor) :
    List α × Except ParseError Cursor :=
  match rule c with
  | .ok (item, next) =>
    if next.left < c.left then collectFrom retry rule (item :: items) next
    else (items.reverse, .ok c)
  | .error e => (items.reverse, if retry e c.offset then .ok c else .error e)
termination_by c.left

/-- Reads by the rule again and again until it fails or does not move. The items read are given with
the cursor behind them, or with the error that no other way may be tried after. -/
def collect (retry : Retry) (rule : Rule α) (c : Cursor) : List α × Except ParseError Cursor :=
  collectFrom retry rule [] c

/-- The rule as often as it goes. -/
def many (retry : Retry) (rule : Rule α) : Rule (List α) := fun c =>
  match collect retry rule c with
  | (items, .ok next) => .ok (items, next)
  | (_, .error e) => .error e

/-- Items with separators between them, or nothing. -/
def sepBy (retry : Retry) (item : Rule α) (separator : Rule Unit) : Rule (List α) := do
  match ← maybe retry item with
  | none => return []
  | some first =>
    let others ← many retry (do separator; item)
    return first :: others

/-- The rule with one more bracket open around it, unless as many are open as the limit allows. -/
def nested (rule : Rule α) : Rule α := fun c =>
  if c.depthLimit ≤ c.depth then .error (.tooDeep c.depthLimit c.position)
  else
    match rule (c.withDepth (c.depth + 1)) with
    | .ok (value, next) => .ok (value, next.withDepth c.depth)
    | .error e => .error e

/-- Reads a whole text by a rule, blanks around it allowed. -/
def parse (rule : Rule α) (limits : Limits) (text : String) : Except ParseError α := do
  let c ← Cursor.open? limits text
  let (value, c) ← rule c
  let _ ← lexeme Lexeme.endOfInput c
  return value

end Rule

end RequestDoc

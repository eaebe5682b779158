import RequestDoc.Error.Expectation
import RequestDoc.Error.Mismatch

/-!
Why a text cannot be parsed. It is too large, it nests too deeply, or something else was expected at some
place. Only the last of these lets another way of reading be tried, and only while nothing was read past
the place where the way that failed had started.
-/

namespace RequestDoc

/-- The cause of a failed parse. -/
inductive ParseError where
  | textTooLarge (limit size : Nat)
  | tooDeep (limit : Nat) (position : Position)
  | mismatch (offset : Nat) (position : Position) (expected : Expectation)
  deriving DecidableEq

namespace ParseError

/-- The error of a mismatch. -/
def ofMismatch (m : Mismatch) : ParseError :=
  mismatch m.offset m.position (.one m.expected)

/-- Something else was expected. -/
def isMismatch : ParseError → Bool
  | mismatch .. => true
  | _ => false

/-- The place of an error, if it has one. -/
def position? : ParseError → Option Position
  | textTooLarge .. => none
  | tooDeep _ position => some position
  | mismatch _ position _ => some position

/-- The error is a mismatch at the byte offset `start`. -/
def failsAt (e : ParseError) (start : Nat) : Bool :=
  match e with
  | mismatch offset .. => offset == start
  | _ => false

/-- Adds what a second error expected to what a first one expected, if both are mismatches at the same
offset. Otherwise the first error stands. -/
def merge : ParseError → ParseError → ParseError
  | mismatch offset position expected, mismatch offset' _ expected' =>
    if offset = offset' then mismatch offset position (expected.merge expected')
    else mismatch offset position expected
  | e, _ => e

/-- The text of an error. -/
def message : ParseError → String
  | textTooLarge limit size =>
    "text size limit exceeded - limit: " ++ toString limit ++ ", text_size: " ++ toString size
  | tooDeep limit position =>
    "depth limit exceeded - limit: " ++ toString limit ++ " at " ++ position.text
  | mismatch offset position expected =>
    "syntax error at " ++ position.text ++ " (offset " ++ toString offset ++ "): expected " ++
      expected.message

end ParseError

end RequestDoc

import RequestDoc.Limits
import RequestDoc.Text.ByteSize
import RequestDoc.Text.Character

/-!
Cursors. A cursor stands between two characters of a text and knows what is left, how many bytes it has
passed, the place of the next character, and how many brackets are open around it. Moving makes a new
cursor, so an attempt that fails leaves the cursor that it started from.
-/

namespace RequestDoc

/-- A state of reading: what is left of a text, and where that starts. -/
structure Cursor where
  text : String
  rest : List Char
  offset : Nat
  position : Position
  depth : Nat
  depthLimit : Nat
  deriving DecidableEq

namespace Cursor

/-- The cursor before a text. -/
def start (text : String) (depthLimit : Nat) : Cursor :=
  ⟨text, text.toList, 0, .first, 0, depthLimit⟩

/-- How many bytes are left. -/
def left (c : Cursor) : Nat :=
  c.text.utf8ByteSize - c.offset

/-- Nothing is left. -/
def atEnd (c : Cursor) : Bool :=
  c.rest.isEmpty

/-- The cursor behind the characters `taken`, which are the first ones that are left. -/
def past (c : Cursor) (taken : List Char) : Cursor :=
  { c with
    rest := c.rest.drop taken.length
    offset := c.offset + byteSize taken
    position := c.position.advance taken }

/-- The cursor with another number of open brackets around it. -/
def withDepth (c : Cursor) (depth : Nat) : Cursor :=
  { c with depth }

/-- The cursor behind all blanks that come next. -/
def skipBlanks (c : Cursor) : Cursor :=
  c.past (c.rest.takeWhile Character.isBlank)

/-- What is left does not start with what was expected. -/
def mismatch (c : Cursor) (expected : String) : Mismatch :=
  ⟨c.offset, c.position, expected⟩

/-- The cursor before the first lexeme of a text within its limits. -/
def open? (limits : Limits) (text : String) : Except ParseError Cursor :=
  match limits.checkSize text with
  | .ok () => .ok (start text limits.depth).skipBlanks
  | .error e => .error e

/-- The cursor stands behind the characters `before` of its text. -/
structure Behind (c : Cursor) (before : List Char) : Prop where
  text : c.text.toList = before ++ c.rest
  offset : c.offset = byteSize before
  position : c.position = Position.first.advance before

/-- The cursor stands between two characters of its text. -/
def Valid (c : Cursor) : Prop :=
  ∃ before, c.Behind before

end Cursor

end RequestDoc

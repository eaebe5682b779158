import RequestDoc.Cursor
import RequestDoc.Number.Numeral
import RequestDoc.Text.Quoted
import RequestDoc.Token

/-!
Lexemes. Reading a lexeme at a cursor gives what the lexeme stands for and the cursor behind it and the
blanks that follow it, or says what was expected and where.
-/

namespace RequestDoc

/-- A way of reading one lexeme. -/
abbrev Lexeme (α : Type) := Cursor → Except Mismatch (α × Cursor)

namespace Lexeme

/-- A token. A keyword ends where a name would end. -/
def token (t : Token) : Lexeme Unit := fun c =>
  let spelling := t.text.toList
  let next := c.past spelling
  if spelling.isPrefixOf c.rest && !(t.isKeyword && next.rest.head?.any Character.continuesName) then
    .ok ((), next.skipBlanks)
  else .error (c.mismatch t.label)

/-- A name: as many characters as belong to one. -/
def name : Lexeme String := fun c =>
  if c.rest.head?.any Character.startsName then
    let spelling := c.rest.takeWhile Character.continuesName
    .ok (String.ofList spelling, (c.past spelling).skipBlanks)
  else .error (c.mismatch "identifier")

/-- A number: the longest numeral. -/
def number : Lexeme Binary64 := fun c =>
  match Numeral.scan? c.rest with
  | some (numeral, _) => .ok (numeral.value, (c.past numeral.text).skipBlanks)
  | none => .error (c.mismatch "number")

/-- A quoted text. A fault is reported behind what was read before it. -/
def quoted : Lexeme String := fun c =>
  match Quoted.scan c.rest with
  | .closed text read => .ok (String.ofList text, (c.past read).skipBlanks)
  | .broken fault read => .error ((c.past read).mismatch fault.label)

/-- The end of the text, possibly after blanks. -/
def endOfInput : Lexeme Unit := fun c =>
  let c := c.skipBlanks
  if c.atEnd then .ok ((), c) else .error (c.mismatch "end of input")

end Lexeme

end RequestDoc

import RequestDoc.Text.Character

/-!
Quoted text. A text is written between double quotes; inside, a backslash starts an escape. Writing
escapes the quote, the backslash and the control characters and nothing else. Reading also takes an
escaped slash, any four-digit escape outside the surrogate range, and raw control characters.
-/

namespace RequestDoc.Quoted

/-! ### Writing -/

/-- The four lower-case hexadecimal digits of a code point below U+10000. -/
def hexDigits (n : Nat) : List Char :=
  [Nat.digitChar (n / 4096 % 16), Nat.digitChar (n / 256 % 16), Nat.digitChar (n / 16 % 16),
    Nat.digitChar (n % 16)]

/-- What stands for a character between the quotes. -/
def encodeChar (c : Char) : List Char :=
  match c with
  | '"' => ['\\', '"']
  | '\\' => ['\\', '\\']
  | '\n' => ['\\', 'n']
  | '\r' => ['\\', 'r']
  | '\t' => ['\\', 't']
  | '\x08' => ['\\', 'b']
  | '\x0c' => ['\\', 'f']
  | c => if Character.isControl c then '\\' :: 'u' :: hexDigits c.toNat else [c]

/-- The characters between the quotes. -/
def encodeBody (cs : List Char) : List Char :=
  cs.flatMap encodeChar

/-- A text between its quotes. -/
def encode (cs : List Char) : List Char :=
  '"' :: (encodeBody cs ++ ['"'])

/-! ### Reading -/

/-- Why a quoted text cannot be read on. -/
inductive Fault where
  | unopened
  | unclosed
  | escape
  | hexDigits
  | surrogate
  deriving DecidableEq

/-- What should have stood where reading stopped. -/
def Fault.label : Fault → String
  | .unopened => "string"
  | .unclosed => "'\"'"
  | .escape => "escape sequence"
  | .hexDigits => "four hex digits"
  | .surrogate => "unicode escape outside the surrogate range"

/-- The character that one letter after a backslash stands for. -/
def shortEscape? : Char → Option Char
  | '\\' => some '\\'
  | '/' => some '/'
  | '"' => some '"'
  | 'b' => some '\x08'
  | 'f' => some '\x0c'
  | 'n' => some '\n'
  | 'r' => some '\r'
  | 't' => some '\t'
  | _ => none

/-- The number that the four leading hexadecimal digits of a text write. -/
def hexNumber? : List Char → Option Nat
  | a :: b :: c :: d :: _ => do
    let a ← Character.hexValue? a
    let b ← Character.hexValue? b
    let c ← Character.hexValue? c
    let d ← Character.hexValue? d
    return ((a * 16 + b) * 16 + c) * 16 + d
  | _ => none

/-- What the text after a backslash stands for, and how many characters of it stand for that. -/
def escape (cs : List Char) : Except Fault (Char × Nat) :=
  match cs with
  | [] => .error .escape
  | c :: rest =>
    match shortEscape? c with
    | some d => .ok (d, 1)
    | none =>
      if c = 'u' then
        match hexNumber? rest with
        | none => .error .hexDigits
        | some n => if 0xD800 ≤ n ∧ n ≤ 0xDFFF then .error .surrogate else .ok (Char.ofNat n, 5)
      else .error .escape

/-- How the reading of a quoted text ended: at the closing quote, with the text that it stands for, or
at a fault. Both keep the characters read until then. -/
inductive Outcome where
  | closed (text read : List Char)
  | broken (fault : Fault) (read : List Char)
  deriving DecidableEq

/-- Reads on after the opening quote. `text` and `read` hold, last first, what was decoded and what was
read so far. -/
def scanBody (text read : List Char) : List Char → Outcome
  | [] => .broken .unclosed read.reverse
  | c :: rest =>
    if c = '"' then .closed text.reverse (c :: read).reverse
    else if c = '\\' then
      match escape rest with
      | .error fault => .broken fault (c :: read).reverse
      | .ok (d, n) => scanBody (d :: text) ((rest.take n).reverse ++ c :: read) (rest.drop n)
    else scanBody (c :: text) (c :: read) rest
termination_by cs => cs.length

/-- Reads a quoted text at the start of `cs`. -/
def scan : List Char → Outcome
  | '"' :: rest => scanBody [] ['"'] rest
  | _ => .broken .unopened []

end RequestDoc.Quoted

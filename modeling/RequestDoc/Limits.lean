import RequestDoc.Error.ParseError

/-!
Limits of one parse: how many bytes a text may have, and how deeply lists, objects and list types may
nest.
-/

namespace RequestDoc

/-- The limits of one parse. -/
structure Limits where
  textSize : Nat
  depth : Nat
  deriving DecidableEq

namespace Limits

/-- Four mebibytes of text and 64 levels. -/
def standard : Limits := ⟨4 * 1024 * 1024, 64⟩

/-- The greatest limit that a word of 64 bits can state. -/
def greatest : Nat := 0xFFFFFFFFFFFFFFFF

/-- Refuses a text with more bytes than the limit. -/
def checkSize (limits : Limits) (text : String) : Except ParseError Unit :=
  if limits.textSize < text.utf8ByteSize then
    .error (.textTooLarge limits.textSize text.utf8ByteSize)
  else .ok ()

end Limits

end RequestDoc

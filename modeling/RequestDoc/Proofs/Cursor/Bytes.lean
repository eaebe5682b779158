import RequestDoc.Cursor.Lemmas
import RequestDoc.Proofs.Text.Slice

/-!
Cursors that know what is left of their text only by the byte offset where it starts. Every look at the text is a
slice at byte offsets, and where a slice does not exist nothing comes of the look. A cursor between two characters
finds all slices that it takes, and they are the characters that come next.
-/

namespace RequestDoc

/-- A state of reading: a text and the byte offset where the rest of it starts. -/
structure ByteCursor where
  text : String
  offset : Nat
  position : Position
  depth : Nat
  depthLimit : Nat
  deriving DecidableEq

namespace ByteCursor

/-- How many bytes are left. -/
def left (c : ByteCursor) : Nat :=
  c.text.utf8ByteSize - c.offset

/-- Nothing is left. -/
def atEnd (c : ByteCursor) : Bool :=
  c.text.utf8ByteSize ≤ c.offset

/-- What is left. -/
def rest? (c : ByteCursor) : Option String :=
  slice? c.text c.offset c.text.utf8ByteSize

/-- The next character. -/
def peek? (c : ByteCursor) : Option (Option Char) :=
  c.rest?.map (·.toList.head?)

/-- The cursor behind the next `bytes` bytes. -/
def advance? (c : ByteCursor) (bytes : Nat) : Option ByteCursor :=
  (slice? c.text c.offset (c.offset + bytes)).map fun taken =>
    { c with position := c.position.advance taken.toList, offset := c.offset + bytes }

/-- The characters up to the first one that the class does not hold, and the cursor behind them. -/
def takeWhile? (c : ByteCursor) (chars : Char → Bool) : Option (String × ByteCursor) := do
  let rest ← c.rest?
  let bytes := byteSize (rest.toList.takeWhile chars)
  let taken ← slice? rest 0 bytes
  let next ← c.advance? bytes
  return (taken, next)

/-- The cursor behind all blanks that come next. -/
def skipBlanks? (c : ByteCursor) : Option ByteCursor :=
  (c.takeWhile? Character.isBlank).map Prod.snd

/-- What is left does not start with what was expected. -/
def mismatch (c : ByteCursor) (expected : String) : Mismatch :=
  ⟨c.offset, c.position, expected⟩

end ByteCursor

namespace Cursor

variable {c : Cursor}

/-- The cursor without what is left of its text. -/
def bytes (c : Cursor) : ByteCursor :=
  ⟨c.text, c.offset, c.position, c.depth, c.depthLimit⟩

/-- Where the offset splits the text, the cursor stands there. -/
theorem Valid.behind_of_offset (h : c.Valid) {before after : List Char} (htext : c.text.toList = before ++ after)
    (hoffset : c.offset = byteSize before) : c.Behind before ∧ c.rest = after := by
  obtain ⟨before', hb⟩ := h
  obtain ⟨rfl, rfl⟩ := eq_of_byteSize_eq (hb.text.symm.trans htext) (hb.offset.symm.trans hoffset)
  exact ⟨hb, rfl⟩

/-- What is left is the slice behind the offset. -/
theorem Valid.rest? (h : c.Valid) : c.bytes.rest? = some (String.ofList c.rest) := by
  obtain ⟨before, hb⟩ := h
  have hsize : c.text.utf8ByteSize = byteSize before + byteSize c.rest := by
    rw [← byteSize_toList, hb.text, byteSize_append]
  have htext : c.text.toList = before ++ c.rest ++ [] := by rw [hb.text, List.append_nil]
  rw [ByteCursor.rest?]
  show slice? c.text c.offset c.text.utf8ByteSize = _
  rw [hsize, hb.offset]
  exact slice?_of_append htext

theorem Valid.peek? (h : c.Valid) : c.bytes.peek? = some c.rest.head? := by
  rw [ByteCursor.peek?, h.rest?, Option.map_some, String.toList_ofList]

/-- Passing characters is advancing by their bytes. -/
theorem Valid.advance? (h : c.Valid) {taken rest : List Char} (hr : c.rest = taken ++ rest) :
    c.bytes.advance? (byteSize taken) = some (c.past taken).bytes := by
  obtain ⟨before, hb⟩ := h
  have htext : c.text.toList = before ++ taken ++ rest := by rw [hb.text, hr, List.append_assoc]
  have hslice : slice? c.text c.offset (c.offset + byteSize taken) = some (String.ofList taken) := by
    rw [hb.offset]
    exact slice?_of_append htext
  rw [ByteCursor.advance?]
  show (slice? c.text c.offset (c.offset + byteSize taken)).map _ = _
  rw [hslice, Option.map_some, String.toList_ofList]
  rfl

theorem Valid.takeWhile? (h : c.Valid) (chars : Char → Bool) :
    c.bytes.takeWhile? chars =
      some (String.ofList (c.rest.takeWhile chars), (c.past (c.rest.takeWhile chars)).bytes) := by
  have hsplit : c.rest = c.rest.takeWhile chars ++ c.rest.dropWhile chars := List.takeWhile_append_dropWhile.symm
  have hslice : slice? (String.ofList c.rest) 0 (byteSize (c.rest.takeWhile chars)) =
      some (String.ofList (c.rest.takeWhile chars)) := by
    have hrest : (String.ofList c.rest).toList = [] ++ c.rest.takeWhile chars ++ c.rest.dropWhile chars := by
      rwa [String.toList_ofList]
    have hfound := slice?_of_append hrest
    rwa [byteSize_nil, Nat.zero_add] at hfound
  simp only [ByteCursor.takeWhile?, h.rest?, Option.bind_eq_bind, Option.bind_some, String.toList_ofList, hslice,
    h.advance? hsplit]
  rfl

theorem Valid.skipBlanks? (h : c.Valid) : c.bytes.skipBlanks? = some c.skipBlanks.bytes := by
  rw [ByteCursor.skipBlanks?, h.takeWhile?]
  rfl

theorem Valid.atEnd (h : c.Valid) : c.bytes.atEnd = c.atEnd := by
  obtain ⟨before, hb⟩ := h
  rw [Bool.eq_iff_iff, hb.atEnd_iff, ByteCursor.atEnd, decide_eq_true_eq]
  have hsize : c.text.utf8ByteSize = byteSize before + byteSize c.rest := by
    rw [← byteSize_toList, hb.text, byteSize_append]
  show c.text.utf8ByteSize ≤ c.offset ↔ _
  rw [hsize, hb.offset]
  omega

end Cursor

end RequestDoc

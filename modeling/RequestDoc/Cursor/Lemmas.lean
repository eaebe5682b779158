import RequestDoc.Cursor

/-!
Where moving leads. A cursor behind some characters of its text that passes the next ones stands behind
both, so every cursor reached from the start of a text stands between two of its characters.
-/

namespace RequestDoc.Cursor

variable {c : Cursor} {before : List Char}

theorem behind_start (text : String) (depthLimit : Nat) : (start text depthLimit).Behind [] :=
  ⟨rfl, rfl, rfl⟩

theorem Behind.past (h : c.Behind before) {taken rest : List Char} (hr : c.rest = taken ++ rest) :
    (c.past taken).Behind (before ++ taken) where
  text := by simp [Cursor.past, h.text, hr]
  offset := by simp [Cursor.past, h.offset]
  position := by simp [Cursor.past, h.position]

theorem rest_past {taken rest : List Char} (hr : c.rest = taken ++ rest) : (c.past taken).rest = rest := by
  simp [past, hr]

theorem Behind.withDepth (h : c.Behind before) (depth : Nat) : (c.withDepth depth).Behind before :=
  ⟨h.text, h.offset, h.position⟩

/-- Skipping blanks passes the blanks that come next. -/
theorem Behind.skipBlanks (h : c.Behind before) :
    c.skipBlanks.Behind (before ++ c.rest.takeWhile Character.isBlank) :=
  h.past List.takeWhile_append_dropWhile.symm

theorem rest_skipBlanks (c : Cursor) : c.skipBlanks.rest = c.rest.dropWhile Character.isBlank :=
  rest_past List.takeWhile_append_dropWhile.symm

theorem Behind.left (h : c.Behind before) : c.left = byteSize c.rest := by
  rw [Cursor.left, ← byteSize_toList, h.text, h.offset, byteSize_append]
  omega

theorem Behind.atEnd_iff (h : c.Behind before) : c.atEnd = true ↔ c.offset = c.text.utf8ByteSize := by
  rw [← byteSize_toList, h.text, h.offset, byteSize_append, atEnd, List.isEmpty_iff]
  constructor
  · intro hr
    simp [hr]
  · intro hb
    have := length_le_byteSize c.rest
    exact List.length_eq_zero_iff.mp (by omega)

theorem valid_start (text : String) (depthLimit : Nat) : (start text depthLimit).Valid :=
  ⟨[], behind_start text depthLimit⟩

theorem Valid.past (h : c.Valid) {taken rest : List Char} (hr : c.rest = taken ++ rest) :
    (c.past taken).Valid := by
  obtain ⟨before, hb⟩ := h
  exact ⟨before ++ taken, hb.past hr⟩

theorem Valid.skipBlanks (h : c.Valid) : c.skipBlanks.Valid := by
  obtain ⟨before, hb⟩ := h
  exact ⟨_, hb.skipBlanks⟩

theorem Valid.withDepth (h : c.Valid) (depth : Nat) : (c.withDepth depth).Valid := by
  obtain ⟨before, hb⟩ := h
  exact ⟨before, hb.withDepth depth⟩

end RequestDoc.Cursor

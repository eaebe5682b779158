import RequestDoc.Lexeme.Lemmas

/-!
Runs of a cursor. A run starts before a text and goes on by reading lexemes, by skipping blanks and by
setting the number of open brackets; it may go on from any cursor that it has reached before. Every cursor
of a run stands between two characters of the text.
-/

namespace RequestDoc.Cursor

/-- One step of a run. -/
inductive Step : Cursor → Cursor → Prop where
  | token {c d : Cursor} (t : Token) : Lexeme.token t c = .ok ((), d) → Step c d
  | name {c d : Cursor} {s : String} : Lexeme.name c = .ok (s, d) → Step c d
  | number {c d : Cursor} {x : Binary64} : Lexeme.number c = .ok (x, d) → Step c d
  | quoted {c d : Cursor} {s : String} : Lexeme.quoted c = .ok (s, d) → Step c d
  | endOfInput {c d : Cursor} : Lexeme.endOfInput c = .ok ((), d) → Step c d
  | skipBlanks (c : Cursor) : Step c c.skipBlanks
  | withDepth (c : Cursor) (depth : Nat) : Step c (c.withDepth depth)

/-- The second cursor is reached by a run from the first one. -/
inductive Reaches (c : Cursor) : Cursor → Prop where
  | start : Reaches c c
  | step {d e : Cursor} : Reaches c d → d.Step e → Reaches c e

theorem Step.valid {c d : Cursor} (h : c.Step d) (hc : c.Valid) : d.Valid := by
  cases h with
  | token t h => exact (Lexeme.token_eq_ok h).valid hc
  | name h => exact (Lexeme.name_eq_ok h).valid hc
  | number h =>
    obtain ⟨n, -, -, hp⟩ := Lexeme.number_eq_ok h
    exact hp.valid hc
  | quoted h =>
    obtain ⟨raw, -, hp⟩ := Lexeme.quoted_eq_ok h
    exact hp.valid hc
  | endOfInput h =>
    obtain ⟨rfl, -⟩ := Lexeme.endOfInput_eq_ok h
    exact hc.skipBlanks
  | skipBlanks => exact hc.skipBlanks
  | withDepth depth => exact hc.withDepth depth

/-- A run does not leave the gaps between characters. -/
theorem Reaches.valid {c d : Cursor} (h : c.Reaches d) (hc : c.Valid) : d.Valid := by
  induction h with
  | start => exact hc
  | step _ hs ih => exact hs.valid ih

end RequestDoc.Cursor

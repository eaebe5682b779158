import RequestDoc.Proofs.Lexeme.Bytes
import RequestDoc.Proofs.Rule.Ahead

/-!
Sound cursors. A place of a text is that of a byte offset if the offset is a boundary and the place is counted over the
slice in front of it. A cursor is sound if it stands at such a place of its text, keeps its limit, and finds every
slice that reading at it takes. Every cursor that stands between two characters is sound.
-/

namespace RequestDoc

variable {α : Type} {text : String} {depthLimit offset : Nat} {place : Position} {c d : Cursor}

/-- The offset is a boundary of the text, and the place is that of the character behind it. -/
structure Located (text : String) (offset : Nat) (place : Position) : Prop where
  within : offset ≤ text.utf8ByteSize
  boundary : Boundary text offset
  place : ∃ before, slice? text 0 offset = some before ∧ place = Position.first.advance before.toList

/-- The cursor belongs to the text and the limit, stands at its place, and finds every slice that it takes. -/
structure Cursor.Sound (text : String) (depthLimit : Nat) (c : Cursor) : Prop where
  text_eq : c.text = text
  limit_eq : c.depthLimit = depthLimit
  located : Located text c.offset c.position
  rest : c.bytes.rest? = some (String.ofList c.rest)
  blanks : c.bytes.skipBlanks? = some c.skipBlanks.bytes
  lexemes : ∀ {α : Type} (kind : Lexeme.Kind α), kind.readBytes c.bytes = some (.of (kind.read c))

/-! ### Places -/

theorem Position.line_next_le (p : Position) (x : Char) : (p.next x).line ≤ p.line + 1 := by
  unfold next
  split
  · exact Nat.le_refl _
  · split
    · exact Nat.le_add_right _ _
    · split <;> exact Nat.le_add_right _ _

theorem Position.column_next_le {p : Position} (hp : p.Counted) (x : Char) : (p.next x).column ≤ p.column + 8 := by
  have := hp.column
  unfold next
  split
  · show 1 ≤ p.column + 8
    omega
  · split
    · exact Nat.le_refl _
    · split
      · exact Nat.le_add_right _ _
      · show p.column + 1 ≤ p.column + 8
        omega

theorem Position.advance_le {p : Position} (hp : p.Counted) (cs : List Char) :
    (p.advance cs).line ≤ p.line + cs.length ∧ (p.advance cs).column ≤ p.column + 8 * cs.length := by
  induction cs generalizing p with
  | nil => exact ⟨Nat.le_refl _, Nat.le_refl _⟩
  | cons x cs ih =>
    obtain ⟨hline, hcolumn⟩ := ih (hp.next x)
    have hnextLine := p.line_next_le x
    have hnextColumn := column_next_le hp x
    rw [advance_cons, List.length_cons]
    omega

theorem located_iff : Located text offset place ↔
    ∃ before after, text.toList = before ++ after ∧ offset = byteSize before ∧ place = Position.first.advance before := by
  constructor
  · rintro ⟨-, -, s, hslice, rfl⟩
    obtain ⟨before, after, htext, hstart, hstop⟩ := slice?_eq_some_iff.mp hslice
    have hlength := length_le_byteSize before
    -- nothing stands before the offset 0
    have hnil : before = [] := List.length_eq_zero_iff.mp (by omega)
    subst hnil
    exact ⟨s.toList, after, htext, by rw [byteSize_toList]; omega, rfl⟩
  · rintro ⟨before, after, htext, rfl, rfl⟩
    refine ⟨?_, boundary_iff.mpr ⟨before, after, htext, rfl⟩, String.ofList before, ?_, by rw [String.toList_ofList]⟩
    · rw [← byteSize_toList, htext, byteSize_append]
      exact Nat.le_add_right _ _
    · have hslice : slice? text (byteSize []) (byteSize [] + byteSize before) = some (String.ofList before) :=
        slice?_of_append htext
      rwa [byteSize_nil, Nat.zero_add] at hslice

/-- A text of less than 2^60 bytes has no line and no column that takes more than 64 bits. -/
theorem Located.fits (h : Located text offset place) (hsize : text.utf8ByteSize < Nat.pow 2 60) :
    place.line < Nat.pow 2 64 ∧ place.column < Nat.pow 2 64 := by
  obtain ⟨before, after, htext, -, rfl⟩ := located_iff.mp h
  have hbytes : byteSize before ≤ text.utf8ByteSize := by
    rw [← byteSize_toList, htext, byteSize_append]
    exact Nat.le_add_right _ _
  have hlength := length_le_byteSize before
  obtain ⟨hline, hcolumn⟩ := Position.advance_le Position.counted_first before
  have hfirst : Position.first.line = 1 ∧ Position.first.column = 1 := ⟨rfl, rfl⟩
  have hpow : 9 * Nat.pow 2 60 ≤ Nat.pow 2 64 := by decide
  omega

/-! ### Cursors -/

namespace Cursor

theorem Behind.located (h : c.Behind before) : Located c.text c.offset c.position :=
  located_iff.mpr ⟨before, c.rest, h.text, h.offset, h.position⟩

theorem Valid.located (h : c.Valid) : Located c.text c.offset c.position := by
  obtain ⟨before, hb⟩ := h
  exact hb.located

theorem Valid.sound (h : c.Valid) : c.Sound c.text c.depthLimit where
  text_eq := rfl
  limit_eq := rfl
  located := h.located
  rest := h.rest?
  blanks := h.skipBlanks?
  lexemes := Lexeme.Kind.readBytes_eq h

/-- A reading leads from a sound cursor to sound ones, and not back. -/
theorem Reads.sound {read : List Char} (h : c.Reads read d) (hc : c.Valid) :
    d.Sound c.text c.depthLimit ∧ c.offset ≤ d.offset ∧ d.depth = c.depth := by
  have htext : d.text = c.text := by
    rw [h.eq_past]
    rfl
  exact ⟨htext ▸ h.depthLimit ▸ (h.valid hc).sound, h.offset_le, h.depth⟩

theorem Meets.located {expected : Expectation} (h : c.Meets (.mismatch offset place expected)) (hc : c.Valid) :
    c.offset ≤ offset ∧ Located c.text offset place := by
  cases h with
  | mismatch _ hr =>
    obtain ⟨hd, hle, -⟩ := hr.sound hc
    exact ⟨hle, hd.text_eq ▸ hd.located⟩

/-- What reading at a cursor comes to: a sound cursor that stands there or behind, with as many brackets open, or an
error that names a place of the text there or behind. -/
structure Keeps (c : Cursor) (outcome : Except ParseError (α × Cursor)) : Prop where
  ok : ∀ {a d}, outcome = .ok (a, d) → d.Sound c.text c.depthLimit ∧ c.offset ≤ d.offset ∧ d.depth = c.depth
  mismatch : ∀ {offset place expected}, outcome = .error (.mismatch offset place expected) →
    c.offset ≤ offset ∧ Located c.text offset place

theorem keeps_of_moves {rule : Rule α} (h : rule.Moves) (hc : c.Valid) : c.Keeps (rule c) where
  ok hr := by
    obtain ⟨read, hreads⟩ := h.reads hr
    exact hreads.sound hc
  mismatch hr := (h.meets hr).located hc

end Cursor

namespace Lexeme.Kind

theorem moves (kind : Kind α) : (Rule.lexeme kind.read).Moves := by
  cases kind with
  | token t => exact Rule.moves_token t
  | name => exact Rule.moves_name
  | number => exact Rule.moves_number
  | quoted => exact Rule.moves_quoted
  | endOfInput => exact Rule.moves_endOfInput

/-- A lexeme that does not come next is missed at a place of the text, at the cursor or behind it. -/
theorem located_of_error {kind : Kind α} {m : Mismatch} (hc : c.Valid) (h : kind.read c = .error m) :
    c.offset ≤ m.offset ∧ Located c.text m.offset m.position :=
  (Cursor.keeps_of_moves kind.moves hc).mismatch (Rule.lexeme_eq_error.mpr ⟨m, h, rfl⟩)

end Lexeme.Kind

end RequestDoc

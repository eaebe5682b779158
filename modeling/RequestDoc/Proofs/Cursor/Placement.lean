import RequestDoc.Document.Shift
import RequestDoc.Proofs.Text.Settled

/-!
Texts placed in greater ones. A cursor of a text that is placed in a greater one has its counterpart there,
behind what stands in front of the text and with what stands behind it left as well. What a reading in the text
comes to, a reading in the greater text comes to in the counterpart, unless more could have been read behind the
end of the text, or more brackets may be open there. An error is settled if neither makes a difference to it.
-/

namespace RequestDoc

variable {c d : Cursor} {text : List Char} {err : ParseError}

/-! ### Moved places -/

theorem Position.shift_first_right (q : Position) : q.shift first = q := by
  obtain ⟨line, column⟩ := q
  unfold shift first
  split
  next h =>
    simp only at h
    subst h
    simp only [Position.mk.injEq, true_and]
    omega
  next h =>
    simp only [Position.mk.injEq, and_true]
    omega

theorem ParseError.shift_first (err : ParseError) : err.shift 0 .first = err := by
  cases err <;> simp [shift, Position.shift_first_right]

theorem Variable.shift_first (v : Variable) : v.shift .first = v := by
  simp [shift, Position.shift_first_right]

theorem Definition.shift_first (definition : Definition) : definition.shift .first = definition := by
  cases definition with
  | query op => simp [shift, Operation.shift, Position.shift_first_right, Variable.shift_first]
  | mutation place => simp [shift, Position.shift_first_right]

/-! ### Moved errors -/

namespace ParseError

theorem failsAt_shift (err : ParseError) (bytes offset : Nat) (start : Position) :
    (err.shift bytes start).failsAt (bytes + offset) = err.failsAt offset := by
  cases err with
  | mismatch =>
    simp only [shift, failsAt]
    rw [Bool.eq_iff_iff, beq_iff_eq, beq_iff_eq]
    omega
  | _ => rfl

theorem merge_shift (err other : ParseError) (bytes : Nat) (start : Position) :
    (err.merge other).shift bytes start = (err.shift bytes start).merge (other.shift bytes start) := by
  cases err with
  | mismatch offset =>
    cases other with
    | mismatch offset' =>
      simp only [merge, shift]
      by_cases h : offset = offset'
      · rw [if_pos h, if_pos (congrArg _ h)]
      · rw [if_neg h, if_neg (by omega)]
    | _ => rfl
  | _ => rfl

/-- The error names the place of the cursor. -/
inductive StandsAt : ParseError → Cursor → Prop where
  | mismatch {d : Cursor} (expected : Expectation) : StandsAt (.mismatch d.offset d.position expected) d
  | tooDeep {d : Cursor} : StandsAt (.tooDeep d.depthLimit d.position) d

theorem StandsAt.withDepth (h : err.StandsAt d) (depth : Nat) : err.StandsAt (d.withDepth depth) := by
  cases h with
  | mismatch expected => exact mismatch (d := d.withDepth depth) expected
  | tooDeep => exact tooDeep (d := d.withDepth depth)

end ParseError

theorem Cursor.Meets.exists_standsAt (h : c.Meets err) : ∃ text d, c.Reads text d ∧ err.StandsAt d := by
  cases h with
  | mismatch expected hr => exact ⟨_, _, hr, .mismatch expected⟩
  | tooDeep hr => exact ⟨_, _, hr, .tooDeep⟩

theorem Position.counted_advance {q : Position} (h : q.Counted) (text : List Char) : (q.advance text).Counted := by
  induction text generalizing q with
  | nil => exact h
  | cons x text ih => exact ih (h.next x)

theorem Cursor.Valid.counted (h : c.Valid) : c.position.Counted := by
  obtain ⟨before, hb⟩ := h
  rw [hb.position]
  exact Position.counted_advance Position.counted_first before

/-! ### Placements -/

/-- Where a text stands in a greater one: behind how many bytes, from which place on and in front of what. As
many more brackets may be open in the greater text. -/
structure Placement where
  text : String
  bytes : Nat
  start : Position
  tail : List Char
  more : Nat

namespace Placement

variable {p : Placement}

/-- The counterpart of a cursor in the greater text. -/
def cursor (p : Placement) (c : Cursor) : Cursor where
  text := p.text
  rest := c.rest ++ p.tail
  offset := p.bytes + c.offset
  position := c.position.shift p.start
  depth := c.depth
  depthLimit := c.depthLimit + p.more

/-- The cursor and its counterpart stand between characters of their texts. -/
structure Fits (p : Placement) (c : Cursor) : Prop where
  inner : c.Valid
  outer : (p.cursor c).Valid

/-- What stands behind the text goes on with nothing that was read in front of `rest`. -/
def Sealed (p : Placement) (rest : List Char) : Prop :=
  p.tail = [] ∨ Settled rest

/-- The error is the same in the greater text. -/
structure Settles (p : Placement) (c : Cursor) (err : ParseError) : Prop where
  sealed : ∀ {text d}, c.Reads text d → err.StandsAt d → p.Sealed d.rest
  limited : ∀ {limit place}, err = .tooDeep limit place → p.more = 0

theorem Sealed.append_left {rest : List Char} (h : p.Sealed rest) (front : List Char) : p.Sealed (front ++ rest) :=
  h.imp_right fun h => h.append_left front

theorem Sealed.of_reads (h : p.Sealed d.rest) (hr : c.Reads text d) : p.Sealed c.rest := by
  rw [hr.rest]
  exact h.append_left text

theorem Sealed.head?_append {rest : List Char} (h : p.Sealed rest) : (rest ++ p.tail).head? = rest.head? := by
  rcases h with h | h
  · rw [h, List.append_nil]
  · rw [List.head?_append, List.head?_eq_some_head h.ne_nil, Option.some_or]

theorem Settles.of_reads (h : p.Settles c err) (hr : c.Reads text d) : p.Settles d err :=
  ⟨fun hmore hd => h.sealed (hr.trans hmore) hd, h.limited⟩

theorem Settles.withDepth (h : p.Settles c err) (depth : Nat) : p.Settles (c.withDepth depth) err :=
  ⟨fun {_ d} hr hd => h.sealed (d := d.withDepth c.depth) hr.of_withDepth (hd.withDepth c.depth), h.limited⟩

theorem Settles.sealed_of_meets (h : p.Settles c err) (hm : c.Meets err) : p.Sealed c.rest := by
  obtain ⟨text, d, hr, hd⟩ := hm.exists_standsAt
  exact (h.sealed hr hd).of_reads hr

theorem settles_of_failsAt (h : p.Sealed c.rest) (hf : err.failsAt c.offset = true) : p.Settles c err where
  sealed {text d} hr hd := by
    cases text with
    | nil =>
      rw [hr.unique (.refl c)]
      exact h
    | cons x text =>
      -- behind what was read the offset is greater, so the error does not stand there
      have hlt := hr.offset_lt (List.cons_ne_nil x text)
      cases hd with
      | mismatch =>
        have heq := beq_iff_eq.mp hf
        omega
      | tooDeep => cases hf
  limited := by
    rintro limit place rfl
    cases hf

/-! ### Counterparts of moved cursors -/

theorem cursor_past {rest : List Char} (hc : c.Valid) (h : c.rest = text ++ rest) :
    (p.cursor c).past text = p.cursor (c.past text) := by
  simp only [cursor, Cursor.past, Cursor.mk.injEq, true_and, and_true]
  refine ⟨?_, Nat.add_assoc .., (Position.shift_advance hc.counted p.start text).symm⟩
  rw [h, List.append_assoc, List.drop_left, List.drop_left]

theorem reads_cursor (hc : c.Valid) (h : c.Reads text d) : (p.cursor c).Reads text (p.cursor d) where
  rest := by
    show c.rest ++ p.tail = text ++ (d.rest ++ p.tail)
    rw [h.rest, List.append_assoc]
  eq_past := by rw [cursor_past hc h.rest, ← h.eq_past]

theorem Fits.of_reads (hc : p.Fits c) (h : c.Reads text d) : p.Fits d :=
  ⟨h.valid hc.inner, (reads_cursor hc.inner h).valid hc.outer⟩

theorem Fits.withDepth (h : p.Fits c) (depth : Nat) : p.Fits (c.withDepth depth) :=
  ⟨h.inner.withDepth depth, h.outer.withDepth depth⟩

theorem cursor_skipBlanks (hc : c.Valid) (h : p.Sealed c.skipBlanks.rest) :
    (p.cursor c).skipBlanks = p.cursor c.skipBlanks := by
  have htake : (c.rest ++ p.tail).takeWhile Character.isBlank = c.rest.takeWhile Character.isBlank := by
    rcases h with h | h
    · rw [h, List.append_nil]
    · rw [Cursor.rest_skipBlanks] at h
      exact (takeWhile_append_of_stop (exists_stop_of_dropWhile h.ne_nil) p.tail).1
  show (p.cursor c).past ((c.rest ++ p.tail).takeWhile Character.isBlank) = _
  rw [htake]
  exact cursor_past hc List.takeWhile_append_dropWhile.symm

/-- A move makes a cursor and its counterpart leave less alike. -/
theorem left_lt_iff (hc : p.Fits c) (hd : p.Fits d) : (p.cursor d).left < (p.cursor c).left ↔ d.left < c.left := by
  rw [hc.inner.left, hd.inner.left, hc.outer.left, hd.outer.left]
  show byteSize (d.rest ++ p.tail) < byteSize (c.rest ++ p.tail) ↔ _
  rw [byteSize_append, byteSize_append]
  omega

theorem passes_cursor {word : List Char} (hc : c.Valid) (h : c.Passes word d) (hd : p.Sealed d.rest) :
    (p.cursor c).Passes word (p.cursor d) := by
  obtain ⟨⟨rest, hr⟩, rfl⟩ := h
  refine ⟨⟨rest ++ p.tail, ?_⟩, ?_⟩
  · show c.rest ++ p.tail = _
    rw [hr, List.append_assoc]
  · rw [cursor_past hc hr, cursor_skipBlanks (hc.past hr) hd]

end Placement

end RequestDoc

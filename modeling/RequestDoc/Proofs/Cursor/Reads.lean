import RequestDoc.Lexeme.Lemmas
import RequestDoc.Text.Spacing

/-!
How cursors move. A cursor reads a text if the text comes next and the second cursor stands right behind
it; what is left, the offset and the place of the second cursor follow from the first one and the text, and
readings are put together by appending their texts. An error is met at a cursor if it names a place that
some reading leads to. Passing a word is reading it together with all blanks behind it.
-/

namespace RequestDoc

/-- No blank starts the text. -/
def Flush (text : List Char) : Prop :=
  ∀ x ∈ text.head?, Character.isBlank x = false

theorem flush_nil : Flush [] := by
  simp [Flush]

theorem flush_cons {x : Char} {text : List Char} (h : Character.isBlank x = false) : Flush (x :: text) := by
  simpa [Flush] using h

theorem flush_dropWhile (text : List Char) : Flush (text.dropWhile Character.isBlank) := by
  induction text with
  | nil => exact flush_nil
  | cons x text ih =>
    by_cases hx : Character.isBlank x = true
    · rwa [List.dropWhile_cons_of_pos hx]
    · rw [List.dropWhile_cons_of_neg hx]
      exact flush_cons (by simpa using hx)

/-- The blanks in front of a text are told apart from it if it starts with none. -/
theorem takeWhile_blanks_append {w rest : List Char} (hw : Blanks w) (hr : Flush rest) :
    (w ++ rest).takeWhile Character.isBlank = w := by
  induction w with
  | nil =>
    cases rest with
    | nil => rfl
    | cons x rest =>
      have hx : Character.isBlank x = false := hr x rfl
      rw [List.nil_append, List.takeWhile_cons_of_neg (by simp [hx])]
  | cons x w ih =>
    have hx : Character.isBlank x = true := hw x List.mem_cons_self
    have hw' : Blanks w := fun y hy => hw y (List.mem_cons_of_mem x hy)
    rw [List.cons_append, List.takeWhile_cons_of_pos hx, ih hw']

theorem blanks_takeWhile (text : List Char) : Blanks (text.takeWhile Character.isBlank) := by
  intro x hx
  exact List.all_eq_true.mp List.all_takeWhile x hx

namespace Cursor

variable {c d e : Cursor} {text : List Char}

theorem past_past (c : Cursor) (first second : List Char) :
    (c.past first).past second = c.past (first ++ second) := by
  simp [past, Nat.add_assoc]

/-! ### Readings -/

/-- The text comes next at the first cursor, and the second one stands right behind it. -/
structure Reads (c : Cursor) (text : List Char) (d : Cursor) : Prop where
  rest : c.rest = text ++ d.rest
  eq_past : d = c.past text

namespace Reads

theorem refl (c : Cursor) : c.Reads [] c :=
  ⟨rfl, rfl⟩

theorem of_rest {rest : List Char} (h : c.rest = text ++ rest) : c.Reads text (c.past text) :=
  ⟨by rw [rest_past h, h], rfl⟩

theorem trans {first second : List Char} (h : c.Reads first d) (k : d.Reads second e) :
    c.Reads (first ++ second) e where
  rest := by rw [h.rest, k.rest, List.append_assoc]
  eq_past := by rw [k.eq_past, h.eq_past, past_past]

/-- A reading of two texts stops between them. -/
theorem split {first second : List Char} (h : c.Reads (first ++ second) e) :
    ∃ d, c.Reads first d ∧ d.Reads second e := by
  have hr : c.rest = first ++ (second ++ e.rest) := by rw [h.rest, List.append_assoc]
  refine ⟨c.past first, of_rest hr, ?_, ?_⟩
  · rw [rest_past hr]
  · rw [past_past]
    exact h.eq_past

theorem unique (h : c.Reads text d) (k : c.Reads text e) : d = e :=
  h.eq_past.trans k.eq_past.symm

theorem text_unique {first second : List Char} (h : c.Reads first d) (k : c.Reads second d) : first = second :=
  List.append_cancel_right (h.rest.symm.trans k.rest)

theorem depth (h : c.Reads text d) : d.depth = c.depth := by
  rw [h.eq_past]
  rfl

theorem depthLimit (h : c.Reads text d) : d.depthLimit = c.depthLimit := by
  rw [h.eq_past]
  rfl

theorem position (h : c.Reads text d) : d.position = c.position.advance text := by
  rw [h.eq_past]
  rfl

theorem offset (h : c.Reads text d) : d.offset = c.offset + byteSize text := by
  rw [h.eq_past]
  rfl

theorem offset_le (h : c.Reads text d) : c.offset ≤ d.offset := by
  rw [h.offset]
  exact Nat.le_add_right _ _

theorem offset_lt (h : c.Reads text d) (hne : text ≠ []) : c.offset < d.offset := by
  have := length_le_byteSize text
  have := List.length_pos_iff.mpr hne
  rw [h.offset]
  omega

theorem valid (h : c.Reads text d) (hc : c.Valid) : d.Valid := by
  rw [h.eq_past]
  exact hc.past h.rest

theorem behind {before : List Char} (h : c.Reads text d) (hc : c.Behind before) : d.Behind (before ++ text) := by
  rw [h.eq_past]
  exact hc.past h.rest

/-- The number of open brackets makes no difference to a reading. -/
theorem withDepth (h : c.Reads text d) (depth : Nat) : (c.withDepth depth).Reads text (d.withDepth depth) where
  rest := h.rest
  eq_past := by
    rw [h.eq_past]
    rfl

theorem of_withDepth {depth : Nat} (h : (c.withDepth depth).Reads text d) : c.Reads text (d.withDepth c.depth) :=
  h.withDepth c.depth

end Reads

theorem Valid.left (h : c.Valid) : c.left = byteSize c.rest := by
  obtain ⟨before, hb⟩ := h
  exact hb.left

theorem Reads.left_lt (h : c.Reads text d) (hc : c.Valid) (hne : text ≠ []) : d.left < c.left := by
  have := length_le_byteSize text
  have := List.length_pos_iff.mpr hne
  rw [hc.left, (h.valid hc).left, h.rest, byteSize_append]
  omega

/-! ### Room for brackets -/

/-- How many brackets may still be opened. -/
def room (c : Cursor) : Nat :=
  c.depthLimit - c.depth

theorem Reads.room (h : c.Reads text d) : d.room = c.room := by
  rw [Cursor.room, Cursor.room, h.depth, h.depthLimit]

theorem Reads.depth_le (h : c.Reads text d) (hc : c.depth ≤ c.depthLimit) : d.depth ≤ d.depthLimit := by
  rwa [h.depth, h.depthLimit]

theorem room_withDepth (h : c.depth < c.depthLimit) : (c.withDepth (c.depth + 1)).room + 1 = c.room := by
  show c.depthLimit - (c.depth + 1) + 1 = c.depthLimit - c.depth
  omega

/-- Even if every character that is left opened a bracket, the limit would allow it. -/
def Roomy (c : Cursor) : Prop :=
  c.depth + c.rest.length ≤ c.depthLimit

theorem Roomy.le (hc : c.Roomy) (h : c.Reads text d) : c.depth + text.length ≤ c.depthLimit := by
  unfold Roomy at hc
  rw [h.rest, List.length_append] at hc
  omega

theorem Reads.roomy (h : c.Reads text d) (hc : c.Roomy) : d.Roomy := by
  unfold Roomy at hc ⊢
  rw [h.rest, List.length_append] at hc
  rw [h.depth, h.depthLimit]
  omega

/-! ### Errors ahead of a cursor -/

/-- The error names a place that a reading from the cursor leads to. -/
inductive Meets (c : Cursor) : ParseError → Prop where
  | mismatch {text : List Char} {d : Cursor} (expected : Expectation) :
      c.Reads text d → Meets c (.mismatch d.offset d.position expected)
  | tooDeep {text : List Char} {d : Cursor} :
      c.Reads text d → Meets c (.tooDeep d.depthLimit d.position)

theorem Meets.of_reads {err : ParseError} (h : c.Reads text d) (hm : d.Meets err) : c.Meets err := by
  cases hm with
  | mismatch expected h' => exact .mismatch expected (h.trans h')
  | tooDeep h' => exact .tooDeep (h.trans h')

theorem Meets.of_withDepth {depth : Nat} {err : ParseError} (h : (c.withDepth depth).Meets err) : c.Meets err := by
  cases h with
  | @mismatch _ d expected h' => exact .mismatch (d := d.withDepth c.depth) expected h'.of_withDepth
  | @tooDeep _ d h' => exact .tooDeep (d := d.withDepth c.depth) h'.of_withDepth

theorem Meets.merge {err : ParseError} (h : c.Meets err) (other : ParseError) : c.Meets (err.merge other) := by
  cases h with
  | mismatch expected h' =>
    cases other with
    | mismatch offset _ expected' =>
      simp only [ParseError.merge]
      split
      · exact .mismatch _ h'
      · exact .mismatch expected h'
    | _ => exact .mismatch expected h'
  | tooDeep h' => exact .tooDeep h'

theorem Meets.limit_eq {limit : Nat} {place : Position} (h : c.Meets (.tooDeep limit place)) : limit = c.depthLimit := by
  cases h with
  | tooDeep hr => exact hr.depthLimit

/-- An error that is met at a cursor is none at a place before it. -/
theorem Meets.failsAt_of_lt {err : ParseError} (h : c.Meets err) {start : Nat} (hlt : start < c.offset) :
    err.failsAt start = false := by
  cases h with
  | mismatch expected hr =>
    have := hr.offset_le
    simp only [ParseError.failsAt, beq_eq_false_iff_ne]
    omega
  | tooDeep => rfl

theorem Meets.offset_le_of_failsAt {err : ParseError} (h : c.Meets err) {offset : Nat} (hfails : err.failsAt offset = true) :
    c.offset ≤ offset := by
  refine Nat.le_of_not_lt fun hlt => ?_
  rw [h.failsAt_of_lt hlt] at hfails
  cases hfails

/-- An error that is met behind some text is not one at the start of that text. -/
theorem Meets.failsAt_eq_false {err : ParseError} (hm : d.Meets err) (h : c.Reads text d) (hne : text ≠ []) :
    err.failsAt c.offset = false :=
  hm.failsAt_of_lt (h.offset_lt hne)

/-! ### Words and the blanks behind them -/

theorem Passes.reads {word : List Char} (h : c.Passes word d) :
    ∃ text, Spaced word text ∧ c.Reads text d ∧ Flush d.rest := by
  obtain ⟨⟨rest, hr⟩, rfl⟩ := h
  have hrest := rest_past hr
  refine ⟨word ++ rest.takeWhile Character.isBlank, ⟨_, blanks_takeWhile rest, rfl⟩, ⟨?_, ?_⟩, ?_⟩
  · rw [rest_skipBlanks, hrest, List.append_assoc, List.takeWhile_append_dropWhile, hr]
  · rw [skipBlanks, past_past, hrest]
  · rw [rest_skipBlanks]
    exact flush_dropWhile _

theorem Reads.skipBlanks {w : List Char} (h : c.Reads w d) (hw : Blanks w) (hd : Flush d.rest) :
    c.skipBlanks = d := by
  rw [Cursor.skipBlanks, h.rest, takeWhile_blanks_append hw hd, h.eq_past]

theorem Reads.passes {word : List Char} (h : c.Reads text d) (ht : Spaced word text) (hd : Flush d.rest) :
    c.Passes word d := by
  obtain ⟨w, hw, rfl⟩ := ht
  obtain ⟨e, h1, h2⟩ := h.split
  refine ⟨⟨e.rest, h1.rest⟩, ?_⟩
  rw [← h1.eq_past, h2.skipBlanks hw hd]

theorem Passes.rest_eq {word w rest : List Char} (h : c.Passes word d) (hc : c.rest = word ++ (w ++ rest))
    (hw : Blanks w) (hr : Flush rest) : d.rest = rest := by
  rw [← List.append_assoc] at hc
  have hrest := rest_past hc
  have hpasses := (Reads.of_rest hc).passes ⟨w, hw, rfl⟩ (hrest.symm ▸ hr)
  rw [h.2, ← hpasses.2, hrest]

theorem reads_skipBlanks (c : Cursor) : c.Reads (c.rest.takeWhile Character.isBlank) c.skipBlanks :=
  .of_rest List.takeWhile_append_dropWhile.symm

end Cursor

end RequestDoc

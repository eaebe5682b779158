import RequestDoc.Proofs.Document.Demand
import RequestDoc.Proofs.Parse.Depth
import RequestDoc.Proofs.Rule.Dropped.Grammar

/-!
What a reported error expects. It expects one thing, or everything that a value or a type can start with. The latter is
reported exactly where a value or a type is due and does not start, and no label is reported that was given up at the same
offset. Where something is due is told without a parser. The limit of depth matters only if it is exceeded, so it is shown
for a limit that the text cannot exceed that an error stands where something is due.
-/

namespace RequestDoc

open Grammar

variable {α : Type} {limits : Limits} {text : String} {demand : Demand} {offset : Nat} {place : Position}
  {expected : Expectation}

/-! ### Where something is due in a text -/

/-- What may be read behind a place in front of a demand, and what is left then. -/
abbrev DueIn := Position → Demand → List Char → List Char → Prop

/-- In the text, behind blanks and what may be read then, something is due at an offset and a place and does not start. -/
inductive Misses (Due : DueIn) (demand : Demand) : List Char → Nat → Position → Prop where
  | mk {w read rest : List Char} :
      Blanks w → Due (Position.first.advance w) demand read rest → Flush rest → ¬AnyStarts demand.firsts rest →
      Misses Due demand (w ++ (read ++ rest)) (byteSize (w ++ read)) (Position.first.advance (w ++ read))

/-- The outcome is that of a script, and its errors are reported as follows. Either one thing is expected or everything that
a value or a type can start with, so nothing is listed twice and something is. All starts of a value or a type are expected
exactly where one is due and does not start, unless a limit is exceeded. What is given up at the offset of the error is not
expected. -/
structure Reports (script : Script α) (Due : DueIn) (limits : Limits) (text : String) (outcome : Except ParseError α) :
    Prop where
  runs : outcome = (script.run Strategy.standard.retry).result limits text
  labels : ∀ {offset place expected}, outcome = .error (.mismatch offset place expected) →
    (∃ label, expected = .one label) ∨ expected = Demand.value.expected ∨ expected = Demand.type.expected
  distinct : ∀ {offset place expected}, outcome = .error (.mismatch offset place expected) →
    expected.labels.Nodup ∧ expected.labels ≠ []
  due : ∀ {demand offset place}, outcome = .error (.mismatch offset place demand.expected) ↔
    text.utf8ByteSize ≤ limits.textSize ∧ (∀ limit place, outcome ≠ .error (.tooDeep limit place)) ∧
      Misses Due demand text.toList offset place
  dropped : ∀ {offset place expected given label}, outcome = .error (.mismatch offset place expected) →
    script.Drops Strategy.standard.retry (Cursor.entry limits text) given → label ∈ given.labelsAt offset →
      label ∉ expected.labels

/-! ### Scripts that ask for what is due -/

theorem Demand.expected_ne_one (demand : Demand) (label : String) : demand.expected ≠ .one label := by
  cases demand <;> exact fun h => nomatch h

theorem Demand.expected_injective {demand demand' : Demand} (h : demand.expected = demand'.expected) :
    demand = demand' := by
  cases demand <;> cases demand' <;> first | rfl | exact absurd h (by decide)

theorem Demand.distinct (demand : Demand) : demand.expected.labels.Nodup ∧ demand.expected.labels ≠ [] := by
  cases demand <;> decide

namespace Script

/-- By the standard strategy. -/
abbrev rule (x : Script α) : Rule α :=
  x.run Strategy.standard.retry

/-- The errors of the script ask for what is due, and where brackets have room it fails where something is due and does
not start. -/
structure AsksFor (x : Script α) (Due : DueIn) : Prop where
  flush : ∀ {place demand read rest}, Due place demand read rest → Flush rest → Flush (read ++ rest)
  asks : ∀ {c : Cursor}, c.Valid → Flush c.rest → x.rule.Asks c fun demand read =>
    ∀ rest, c.rest = read ++ rest → Due c.position demand read rest
  fails : ∀ {c d : Cursor} {demand read}, Due c.position demand read d.rest → c.Reads read d → Flush d.rest →
    ¬AnyStarts demand.firsts d.rest → c.Valid → c.Roomy →
      x.rule c = .error (.mismatch d.offset d.position demand.expected)
  outlasts : ∀ {size depth depth' text}, depth ≤ depth' →
    Outlasts depth (x.rule.result ⟨size, depth⟩ text) (x.rule.result ⟨size, depth'⟩ text)

namespace AsksFor

variable {x : Script α} {Due : DueIn}

theorem asks_entry (h : x.AsksFor Due) {err : ParseError} (herr : x.rule (Cursor.entry limits text) = .error err) :
    (Cursor.entry limits text).Asks (fun demand read => ∀ rest, (Cursor.entry limits text).rest = read ++ rest →
      Due (Cursor.entry limits text).position demand read rest) err :=
  h.asks (Cursor.valid_entry limits text) (Cursor.flush_entry limits text) err herr

theorem labels (h : x.AsksFor Due) (herr : x.rule (Cursor.entry limits text) = .error (.mismatch offset place expected)) :
    (∃ label, expected = .one label) ∨ ∃ demand : Demand, expected = demand.expected := by
  cases h.asks_entry herr with
  | one _ _ label => exact Or.inl ⟨label, rfl⟩
  | @due demand => exact Or.inr ⟨demand, rfl⟩

theorem misses (h : x.AsksFor Due)
    (herr : x.rule (Cursor.entry limits text) = .error (.mismatch offset place demand.expected)) :
    Misses Due demand text.toList offset place := by
  obtain ⟨w, hw, hentry⟩ := Cursor.reads_entry limits text
  generalize hexpected : demand.expected = expected at herr
  cases h.asks_entry herr with
  | one offset place label => exact absurd hexpected (demand.expected_ne_one label)
  | @due demand' read d hdue hr hflush hnone =>
    obtain rfl := Demand.expected_injective hexpected
    have hdue := hdue d.rest hr.rest
    rw [hentry.position] at hdue
    have hbehind := (hentry.trans hr).behind (Cursor.behind_start ..)
    have htext : text.toList = w ++ (read ++ d.rest) := by
      rw [← List.append_assoc]
      exact (hentry.trans hr).rest
    rw [htext, hbehind.offset, hbehind.position]
    exact .mk hw hdue hflush hnone

/-- Under any limit of depth that is not exceeded the script fails where something is due and does not start. -/
theorem result_of_misses (h : x.AsksFor Due) (hsize : text.utf8ByteSize ≤ limits.textSize)
    (hdeep : ∀ limit place, x.rule.result limits text ≠ .error (.tooDeep limit place))
    (hmisses : Misses Due demand text.toList offset place) :
    x.rule.result limits text = .error (.mismatch offset place demand.expected) := by
  generalize hchars : text.toList = chars at hmisses
  obtain ⟨hw, hdue, hflush, hnone⟩ := hmisses
  -- with one more bracket allowed for each character no limit of depth is exceeded
  have hlarge : text.utf8ByteSize ≤ (Limits.mk limits.textSize (max limits.depth text.length)).textSize := hsize
  obtain ⟨hentry, hrest⟩ := Cursor.reads_entry_of_eq ⟨limits.textSize, max limits.depth text.length⟩ hw hchars
    (h.flush hdue hflush)
  have hplace : Position.first.advance _ = _ := hentry.position.symm
  have hr := Cursor.Reads.of_rest hrest
  have hbehind := (hentry.trans hr).behind (Cursor.behind_start ..)
  rw [← Cursor.rest_past hrest] at hdue hflush hnone
  rw [hplace] at hdue
  have herr := h.fails hdue hr hflush hnone (Cursor.valid_entry _ _) (Cursor.roomy_entry (Nat.le_max_right _ _))
  rw [hbehind.offset, hbehind.position] at herr
  exact ((h.outlasts (Nat.le_max_left _ _)).same hdeep).symm.trans ((Rule.result_eq_error_iff hlarge).mpr herr)

/-- What a script reports, if what it gives up has other labels. -/
theorem reports (h : x.AsksFor Due) {heads lasts : List String} (htidy : x.Tidy Strategy.standard.retry heads lasts) :
    Reports x Due limits text (x.rule.result limits text) := by
  have hsize {offset place expected} (herr : x.rule.result limits text = .error (.mismatch offset place expected)) :
      text.utf8ByteSize ≤ limits.textSize :=
    Rule.size_of_result fun _ _ h' => nomatch herr.symm.trans h'
  have hentry {offset place expected} (herr : x.rule.result limits text = .error (.mismatch offset place expected)) :=
    (Rule.result_eq_error_iff (hsize herr)).mp herr
  exact {
    runs := rfl
    labels := fun herr => by
      rcases h.labels (hentry herr) with hone | ⟨demand, rfl⟩
      · exact Or.inl hone
      · cases demand with
        | value => exact Or.inr (Or.inl rfl)
        | type => exact Or.inr (Or.inr rfl)
    distinct := fun herr => by
      rcases h.labels (hentry herr) with ⟨label, rfl⟩ | ⟨demand, rfl⟩
      · exact ⟨List.nodup_singleton _, List.cons_ne_nil _ _⟩
      · exact demand.distinct
    due := by
      intro demand offset place
      constructor
      · intro herr
        exact ⟨hsize herr, (fun _ _ h' => nomatch herr.symm.trans h'), h.misses (hentry herr)⟩
      · rintro ⟨hsize, hdeep, hmisses⟩
        exact h.result_of_misses hsize hdeep hmisses
    dropped := fun herr hdrops hgiven hlabel =>
      htidy.not_mem (Cursor.valid_entry limits text) (hentry herr) hdrops hgiven
        (ParseError.mem_labelsAt.mpr ⟨_, _, rfl, hlabel⟩) }

end AsksFor

/-! ### The entry points -/

/-- A rule that has to take up a text asks for what is due in what it reads. -/
theorem asksFor_toEnd {x : Script α} {Due : Demand → List Char → Prop}
    (hflush : ∀ {demand due}, Due demand due → ∀ {rest}, Flush rest → Flush (due ++ rest))
    (hasks : ∀ {c : Cursor}, c.Valid → Flush c.rest → x.rule.Asks c Due)
    (hfails : ∀ {c d : Cursor} {demand due}, Due demand due → c.Reads due d → Flush d.rest →
      ¬AnyStarts demand.firsts d.rest → c.Valid → c.Roomy →
        x.rule c = .error (.mismatch d.offset d.position demand.expected))
    (hcarries : ∀ {p : Placement}, x.rule.Carries p id x.rule) : x.toEnd.AsksFor fun _ demand read _ => Due demand read where
  flush hdue hrest := hflush hdue hrest
  asks hc hc' := by
    refine Rule.Asks.bind (fun err herr => ?_) x.moves_run fun _ _ =>
      (Rule.asks_lexeme _).bind Rule.moves_endOfInput fun _ _ => Rule.asks_pure _
    exact (hasks hc hc' err herr).mono fun hdue _ _ _ => hdue
  fails hdue hr hd hnone hv hroom := Rule.bind_of_error (hfails hdue hr hd hnone hv hroom)
  outlasts hle := Rule.outlasts_result (Rule.Carries.toEnd rfl hcarries) hle

theorem asksFor_literal : (literal .standard).toEnd.AsksFor fun _ demand read _ => DueInLiteral demand read := by
  refine asksFor_toEnd flush_dueInLiteral ?_ ?_ ?_
  · intro c hc hflush
    rw [rule, run_literal]
    exact Rule.asks_literal hc hflush
  · intro c d demand due
    rw [rule, run_literal]
    exact Rule.literal_of_due
  · intro p
    rw [rule, run_literal]
    exact Rule.carries_literal Strategy.committed_standard

theorem asksFor_typeRef : (typeRef .standard).toEnd.AsksFor fun _ demand read _ => DueInReference demand read := by
  refine asksFor_toEnd flush_dueInReference ?_ ?_ ?_
  · intro c _ hflush
    rw [rule, run_typeRef]
    exact Rule.asks_typeRef hflush
  · intro c d demand due
    rw [rule, run_typeRef]
    exact Rule.typeRef_of_due
  · intro p
    rw [rule, run_typeRef]
    exact Rule.carries_typeRef Strategy.committed_standard

theorem asksFor_document : (document .standard).AsksFor DueInDocument where
  flush hdue _ := flush_dueInDocument hdue
  asks hc hflush := by
    rw [rule, run_document]
    exact Rule.asks_document hc hflush
  fails := by
    rw [rule, run_document]
    exact Rule.document_of_due
  outlasts hle := by
    rw [rule, run_document, ← Document.parse_eq_result, ← Document.parse_eq_result]
    exact Document.outlasts_parse hle

end Script

/-- Each entry point reports for every text and under all limits what is expected in it. -/
theorem reported_expectations (limits : Limits) (text : String) :
    Reports (Script.literal .standard).toEnd (fun _ demand read _ => DueInLiteral demand read) limits text
      (Value.parse limits text) ∧
    Reports (Script.typeRef .standard).toEnd (fun _ demand read _ => DueInReference demand read) limits text
      (TypeRef.parse limits text) ∧
    Reports (Script.document .standard) DueInDocument limits text (Document.parse limits text) := by
  refine ⟨?_, ?_, ?_⟩
  · have htidy := Script.tidy_toEnd Script.guarded_literal Script.tidy_literal List.not_mem_nil
    rw [Value.parse, Value.parseBy, Rule.parse_eq_result, ← Script.run_literal, ← Script.run_toEnd]
    exact Script.asksFor_literal.reports htidy
  · have htidy := Script.tidy_toEnd Script.guarded_typeRef Script.tidy_typeRef (by decide)
    rw [TypeRef.parse, TypeRef.parseBy, Rule.parse_eq_result, ← Script.run_typeRef, ← Script.run_toEnd]
    exact Script.asksFor_typeRef.reports htidy
  · rw [Document.parse_eq_result, ← Script.run_document]
    exact Script.asksFor_document.reports Script.tidy_document

/-- Behind a comma in a list a value is expected, and behind an open list only its end. -/
example :
    Value.parse ⟨64, 64⟩ "[null, x" = .error (.mismatch 7 ⟨1, 8⟩ Demand.value.expected) ∧
      Value.parse ⟨64, 64⟩ "[x" = .error (.mismatch 1 ⟨1, 2⟩ (.one "']'")) :=
  ⟨by with_unfolding_all rfl, by with_unfolding_all rfl⟩

end RequestDoc

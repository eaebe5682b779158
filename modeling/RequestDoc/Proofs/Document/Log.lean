import RequestDoc.Proofs.Document.Exact

/-!
The log of a parse. A logged rule does what the rule without a log does and leaves the record of what it read, and
none if it fails, so a choice leaves the record of the way that was taken and of no other one. Every definition moves
the cursor, so the log of a repetition holds the records of the definitions of its run, also when the repetition ends
with an error.
-/

namespace RequestDoc

open Grammar

variable {α β : Type} {s : Strategy} {c d : Cursor} {err : ParseError} {log : List LogRecord}

/-- The record of a definition. -/
def LogRecord.ofDefinition : Definition → LogRecord
  | .query op => query op.name op.position
  | .mutation position => mutation position

/-- The records of a parse that succeeded with the cursor behind the last definition. -/
def LogRecord.ending (operations : Nat) (c : Cursor) : List LogRecord :=
  (if c.atEnd then [] else [unread c.left c.position]) ++ [finished operations]

namespace LoggedRule

/-! ### Logged rules -/

theorem bind_of_ok {rule : LoggedRule α} {next : α → LoggedRule β} {a : α} {log' : List LogRecord}
    (h : rule c log = (.ok (a, d), log')) : (rule >>= next) c log = next a d log' := by
  simp only [bind, StateT.bind, ExceptT.bind, ExceptT.mk, h, ExceptT.bindCont]

theorem bind_of_error {rule : LoggedRule α} {next : α → LoggedRule β} {log' : List LogRecord}
    (h : rule c log = (.error err, log')) : (rule >>= next) c log = (.error err, log') := by
  simp only [bind, StateT.bind, ExceptT.bind, ExceptT.mk, h, ExceptT.bindCont]
  rfl

/-- The logged rule does what the other one does. It leaves a record of what it reads, and none if it fails. -/
structure Tells (record : α → LogRecord) (logged : LoggedRule α) (rule : Rule α) : Prop where
  ok : ∀ {c d : Cursor} {a : α} {log : List LogRecord}, rule c = .ok (a, d) → logged c log = (.ok (a, d), record a :: log)
  error : ∀ {c : Cursor} {err : ParseError} {log : List LogRecord}, rule c = .error err → logged c log = (.error err, log)

variable {record : α → LogRecord}

theorem tells_firstOf {retry : Retry} {φ : Type} {forms : List φ} {logged : φ → LoggedRule α} {rule : φ → Rule α}
    (h : ∀ f, Tells record (logged f) (rule f)) (failure : Option ParseError) :
    Tells record (firstOf retry failure (forms.map logged)) (Rule.firstOf retry failure (forms.map rule)) := by
  induction forms generalizing failure with
  | nil =>
    constructor
    · intro c d a log hr
      cases hr
    · intro c err log hr
      obtain rfl := Except.error.inj hr
      rfl
  | cons f forms ih =>
    constructor
    · intro c d a log hr
      rw [List.map_cons, Rule.firstOf] at hr
      rw [List.map_cons, firstOf]
      split at hr
      next result hf =>
        obtain rfl := Except.ok.inj hr
        rw [(h f).ok hf]
      next err hf =>
        rw [(h f).error hf]
        split at hr
        next hretry =>
          simp only [hretry, if_true]
          exact (ih _).ok hr
        · cases hr
    · intro c err log hr
      rw [List.map_cons, Rule.firstOf] at hr
      rw [List.map_cons, firstOf]
      split at hr
      · cases hr
      next err' hf =>
        rw [(h f).error hf]
        split at hr
        next hretry =>
          simp only [hretry, if_true]
          exact (ih _).error hr
        next hretry =>
          obtain rfl := Except.error.inj hr
          simp only [hretry, Bool.false_eq_true, if_false]

theorem tells_definitionForm (f : DefinitionForm) :
    Tells .ofDefinition (definitionForm s f) (Rule.definitionForm s f) := by
  cases f with
  | query =>
    constructor
    · intro c d x log h
      obtain ⟨op, e, hquery, hpure⟩ := Rule.bind_eq_ok.mp h
      obtain ⟨rfl, rfl⟩ := Prod.mk.inj (Except.ok.inj hpure)
      have hsilent : silent (Rule.query s) c log = (.ok (op, e), log) := congrArg (·, log) hquery
      exact bind_of_ok hsilent
    · intro c err log h
      rcases Rule.bind_eq_error.mp h with hquery | ⟨op, e, -, hpure⟩
      · have hsilent : silent (Rule.query s) c log = (.error err, log) := congrArg (·, log) hquery
        exact bind_of_error hsilent
      · cases hpure
  | mutation =>
    constructor
    · intro c d x log h
      obtain ⟨place, e, hplace, h⟩ := Rule.bind_eq_ok.mp h
      obtain ⟨rfl, rfl⟩ := Prod.mk.inj (Except.ok.inj hplace)
      obtain ⟨⟨⟩, f, hword, hpure⟩ := Rule.bind_eq_ok.mp h
      obtain ⟨rfl, rfl⟩ := Prod.mk.inj (Except.ok.inj hpure)
      have hsilent : silent (Rule.token .mutation) c log = (.ok ((), f), log) := congrArg (·, log) hword
      exact (bind_of_ok rfl).trans (bind_of_ok hsilent)
    · intro c err log h
      rcases Rule.bind_eq_error.mp h with hplace | ⟨place, e, hplace, h⟩
      · cases hplace
      · obtain ⟨rfl, rfl⟩ := Prod.mk.inj (Except.ok.inj hplace)
        rcases Rule.bind_eq_error.mp h with hword | ⟨_, f, -, hpure⟩
        · have hsilent : silent (Rule.token .mutation) c log = (.error err, log) := congrArg (·, log) hword
          exact (bind_of_ok rfl).trans (bind_of_error hsilent)
        · cases hpure

theorem tells_definition : Tells .ofDefinition (definition s) (Rule.definition s) :=
  tells_firstOf tells_definitionForm none

/-! ### Repetition -/

theorem manyFrom_of_run {retry : Retry} {logged : LoggedRule α} {rule : Rule α} (h : Tells record logged rule) {as : List α}
    (hrun : Rule.Run rule c as d) (items : List α) (log : List LogRecord) :
    manyFrom retry logged items c log =
      manyFrom retry logged (as.reverse ++ items) d ((as.map record).reverse ++ log) := by
  induction hrun generalizing items log with
  | nil => rfl
  | cons hr hlt _ ih =>
    rw [manyFrom, h.ok hr]
    simp only [hlt, if_true]
    rw [ih]
    simp

theorem manyFrom_of_error {retry : Retry} {logged : LoggedRule α} {rule : Rule α} (h : Tells record logged rule)
    (hr : rule c = .error err) (items : List α) (log : List LogRecord) :
    manyFrom retry logged items c log = (if retry err c.offset then .ok (items.reverse, c) else .error err, log) := by
  rw [manyFrom, h.error hr]

/-- Whatever a repetition of definitions comes to, its log holds the records of the definitions read. -/
theorem many_definition (hv : c.Valid) {ds : List Definition} {out : Except ParseError Cursor}
    (h : Rule.collect s.retry (Rule.definition s) c = (ds, out)) :
    many s.retry (definition s) c log =
      (out.map fun d => (ds, d), (ds.map LogRecord.ofDefinition).reverse ++ log) := by
  have hrecords : ∀ {d}, Rule.Run (Rule.definition s) c ds d → many s.retry (definition s) c log =
      manyFrom s.retry (definition s) ds.reverse d ((ds.map LogRecord.ofDefinition).reverse ++ log) := by
    intro d hrun
    rw [many, manyFrom_of_run tells_definition hrun, List.append_nil]
  cases out with
  | ok d =>
    obtain ⟨hrun, hstops⟩ := Rule.collect_eq_ok_iff.mp h
    rw [hrecords hrun]
    rcases hstops with ⟨x, e, hx, hstay⟩ | ⟨err, herr, hretry⟩
    · -- every definition takes up some text
      obtain ⟨text, hr⟩ := (Rule.moves_definition s).run hrun
      obtain ⟨more, hne, hmore, -, -⟩ := Rule.definition_eq_ok hx
      exact absurd (hmore.left_lt (hr.valid hv) hne) hstay
    · rw [manyFrom_of_error tells_definition herr, if_pos hretry, List.reverse_reverse]
      rfl
  | error err =>
    obtain ⟨d, hrun, herr, hretry⟩ := Rule.collect_eq_error.mp h
    rw [hrecords hrun, manyFrom_of_error tells_definition herr, hretry, if_neg Bool.false_ne_true]
    rfl

theorem document_of_many {ds : List Definition} {log' : List LogRecord}
    (h : many s.retry (definition s) c log = (.ok (ds, d), log')) :
    document s c log = (.ok (.ofDefinitions ds, d),
      (LogRecord.ending (Document.ofDefinitions ds).operations.length d).reverse ++ log') := by
  have hget : (get : LoggedRule Cursor) d log' = (.ok (d, d), log') := rfl
  rw [document, bind_of_ok h, bind_of_ok hget]
  unfold LogRecord.ending
  cases hend : d.atEnd with
  | true => rfl
  | false => rfl

end LoggedRule

/-! ### Whole texts -/

namespace Document

variable {limits : Limits} {text : String}

/-- The log of a reading of a text. -/
def logOf : List Definition × Except ParseError Cursor → List LogRecord
  | (ds, .ok c) => ds.map LogRecord.ofDefinition ++ LogRecord.ending (ofDefinitions ds).operations.length c
  | (ds, .error _) => ds.map LogRecord.ofDefinition

/-- Keeping a log makes no difference to what is parsed, and the log tells what was read. -/
theorem parseLogged_eq (limits : Limits) (text : String) :
    parseLogged limits text = (logOf (read .standard limits text), parse limits text) := by
  unfold parseLogged parse parseBy read
  cases hopen : Cursor.open? limits text with
  | error err => rfl
  | ok c =>
    have hv : c.Valid := Cursor.valid_of_open? hopen
    cases hcollect : Rule.collect Strategy.standard.retry (Rule.definition .standard) c with
    | mk ds out =>
      have hmany : ∀ log, LoggedRule.many Strategy.standard.retry (LoggedRule.definition .standard) c log = _ :=
        fun log => LoggedRule.many_definition hv hcollect
      cases out with
      | ok d =>
        simp only [LoggedRule.document_of_many (hmany []), hcollect, logOf, ofReading, List.append_nil, List.reverse_append,
          List.reverse_reverse]
        rfl
      | error err =>
        have hdocument : LoggedRule.document .standard c [] = (.error err, (ds.map LogRecord.ofDefinition).reverse ++ []) :=
          LoggedRule.bind_of_error (hmany [])
        simp only [hdocument, hcollect, logOf, ofReading, List.append_nil, List.reverse_reverse]
        rfl

/-- The text is blanks and the definitions, which make up its front, and a rest that does not start with a blank. Every
query among the definitions has a name. -/
structure Divides (text : String) (front : List Char) (ds : List Definition) (rest : List Char) : Prop where
  text : text.toList = front ++ rest
  definitions : ∃ w defs, Blanks w ∧ front = w ++ defs ∧ Definitions (Position.first.advance w) (defs ++ rest) ds rest
  flush : Flush rest
  named : ∀ op, .query op ∈ ds → ∃ name, op.name = some name

theorem named_of_definitions {place : Position} {text rest : List Char} {ds : List Definition}
    (h : Definitions place text ds rest) {op : Operation} (hop : .query op ∈ ds) : ∃ name, op.name = some name := by
  induction h with
  | none => cases hop
  | query hquery _ ih =>
    rcases List.mem_cons.mp hop with heq | hop
    · obtain rfl := Definition.query.inj heq
      cases hquery with
      | shorthand => exact ⟨_, rfl⟩
      | declared => exact ⟨_, rfl⟩
    · exact ih hop
  | mutation _ _ _ ih =>
    rcases List.mem_cons.mp hop with heq | hop
    · cases heq
    · exact ih hop

theorem divides_of_run {ds : List Definition} {d : Cursor}
    (h : Rule.Run (Rule.definition .standard) (Cursor.entry limits text) ds d) :
    ∃ front, Divides text front ds d.rest ∧ d.text = text ∧ d.Behind front := by
  obtain ⟨w, hw, hentry⟩ := Cursor.reads_entry limits text
  obtain ⟨defs, hr⟩ := (Rule.moves_definition .standard).run h
  obtain ⟨hdefs, hflush⟩ := Rule.definitions_of_run h (Cursor.flush_entry limits text)
  have hall := hentry.trans hr
  rw [hentry.position, hr.rest] at hdefs
  refine ⟨w ++ defs, ⟨hall.rest, ⟨w, defs, hw, rfl, hdefs⟩, hflush, fun _ => named_of_definitions hdefs⟩,
    ?_, ?_⟩
  · rw [hall.eq_past]
    rfl
  · rw [hall.eq_past]
    exact (Cursor.behind_start text limits.depth).past hall.rest

end Document

/-- The level and the text of a record. -/
def LogRecord.line (r : LogRecord) : LogLevel × String :=
  (r.level, r.message)

/-- What the record of a query tells. -/
def LogRecord.query? : LogRecord → Option (Option OperationName × Position)
  | query name position => some (name, position)
  | _ => none

/-- The line that a definition leaves in the log. -/
def Definition.line : Definition → LogLevel × String
  | .query op =>
    (.trace, "parsed query " ++ (op.name.elim "None" fun name => "Some(\"" ++ name.text ++ "\")") ++ " at " ++ op.position.text)
  | .mutation position =>
    (.debug, "skipping mutation at " ++ position.text ++ ": mutations do not produce operations")

theorem Definition.line_ofDefinition (x : Definition) : (LogRecord.ofDefinition x).line = x.line := by
  cases x with
  | query op =>
    obtain ⟨position, kind, name, declared, directives, selection⟩ := op
    cases name with
    | none => rfl
    | some name => rfl
  | mutation position => rfl

namespace Document

/-- The log of a parse that ends with a document, before a rest that no definition starts: the lines of the
definitions, a line for the rest if there is one, and a line for the document. -/
structure LogsSuccess (front : List Char) (ds : List Definition) (rest : List Char) (doc : Document)
    (log : List LogRecord) : Prop where
  ends : ¬DefinitionStarts rest
  operations : doc.operations = ds.filterMap Definition.operation?
  lines : log.map LogRecord.line = ds.map Definition.line ++
    (if rest = [] then [] else [(.debug, "ignoring " ++ toString (byteSize rest) ++ " bytes of trailing input at " ++
      (Position.first.advance front).text)]) ++
    [(.trace, "parsed document with " ++ toString doc.operations.length ++ " operation(s)")]
  queries : log.filterMap LogRecord.query? = doc.operations.map fun op => (op.name, op.position)

/-- The log of a parse that ends with an error, in the definition that the rest starts with: the lines of the
definitions before it. -/
structure LogsFailure (text : String) (front : List Char) (ds : List Definition) (rest : List Char) (err : ParseError)
    (log : List LogRecord) : Prop where
  starts : DefinitionStarts rest
  fails : ∃ c : Cursor, c.text = text ∧ c.Behind front ∧ Rule.definition .standard c = .error err
  lines : log.map LogRecord.line = ds.map Definition.line
  queries : log.filterMap LogRecord.query? = (ds.filterMap Definition.operation?).map fun op => (op.name, op.position)

theorem filterMap_query?_ofDefinition (ds : List Definition) : (ds.map LogRecord.ofDefinition).filterMap LogRecord.query? =
    (ds.filterMap Definition.operation?).map fun op => (op.name, op.position) := by
  rw [List.filterMap_map, List.map_filterMap]
  congr 1
  funext x
  cases x <;> rfl

theorem map_line_ofDefinition (ds : List Definition) :
    (ds.map LogRecord.ofDefinition).map LogRecord.line = ds.map Definition.line := by
  rw [List.map_map]
  exact List.map_congr_left fun x _ => x.line_ofDefinition

theorem line_ending {front : List Char} {c : Cursor} (hc : c.Behind front) (operations : Nat) :
    (LogRecord.ending operations c).map LogRecord.line =
      (if c.rest = [] then [] else [(.debug, "ignoring " ++ toString (byteSize c.rest) ++ " bytes of trailing input at " ++
        (Position.first.advance front).text)]) ++
      [(.trace, "parsed document with " ++ toString operations ++ " operation(s)")] := by
  unfold LogRecord.ending
  rw [hc.left, hc.position]
  cases hrest : c.rest with
  | nil =>
    have hend : c.atEnd = true := List.isEmpty_iff.mpr hrest
    simp only [hend, if_true]
    rfl
  | cons x rest =>
    have hend : c.atEnd = false := by simp [Cursor.atEnd, hrest]
    simp only [hend, Bool.false_eq_true, if_false, reduceCtorEq]
    rfl

theorem filterMap_query?_ending (operations : Nat) (c : Cursor) :
    (LogRecord.ending operations c).filterMap LogRecord.query? = [] := by
  unfold LogRecord.ending
  cases c.atEnd <;> rfl

/-- A logged parse is the parse with a log. The log has a line for each definition that was completed, in order, also
if the parse fails, and none for a text that is too large. -/
theorem parseLogged_tells (limits : Limits) (text : String) :
    (parseLogged limits text).2 = parse limits text ∧
    (limits.textSize < text.utf8ByteSize → (parseLogged limits text).1 = []) ∧
    (text.utf8ByteSize ≤ limits.textSize →
      ∃ front rest, Divides text front (read .standard limits text).1 rest ∧
        (∀ doc, parse limits text = .ok doc →
          LogsSuccess front (read .standard limits text).1 rest doc (parseLogged limits text).1) ∧
        (∀ err, parse limits text = .error err →
          LogsFailure text front (read .standard limits text).1 rest err (parseLogged limits text).1)) := by
  have hs := Strategy.thorough_standard
  have hc := Strategy.committed_standard
  rw [parseLogged_eq]
  refine ⟨rfl, fun hlarge => ?_, fun hsize => ?_⟩
  · unfold read
    rw [Cursor.open?_of_tooLarge hlarge]
    rfl
  unfold parse parseBy
  rw [read_eq_collect hsize]
  cases hcollect : Rule.collect Strategy.standard.retry (Rule.definition .standard) (Cursor.entry limits text) with
  | mk ds out =>
    obtain ⟨_, d, hrun, rfl, hend⟩ := Rule.run_of_collectFrom hcollect
    obtain ⟨front, hdivides, htext, hbehind⟩ := divides_of_run hrun
    have hstops := Rule.stops_definition_iff hs hc ⟨front, hbehind⟩
    refine ⟨front, d.rest, hdivides, fun doc hdoc => ?_, fun err herr => ?_⟩
    · rcases hend with ⟨rfl, hstop⟩ | ⟨err, rfl, -, -⟩
      · obtain rfl := Except.ok.inj hdoc
        refine ⟨hstops.mp hstop, rfl, ?_, ?_⟩
        · rw [logOf, List.map_append, map_line_ofDefinition, line_ending hbehind, List.append_assoc]
        · rw [logOf, List.filterMap_append, filterMap_query?_ofDefinition, filterMap_query?_ending, List.append_nil]
          rfl
      · cases hdoc
    · rcases hend with ⟨rfl, -⟩ | ⟨err', rfl, hfails, hretry⟩
      · cases herr
      · obtain rfl := Except.error.inj herr
        have hstarts : DefinitionStarts d.rest := by
          refine Classical.byContradiction fun hnone => ?_
          obtain ⟨err, hrefuses, hgoesOn⟩ := (Rule.refuses_definition hnone).yields hs
          obtain rfl := Except.error.inj (hfails.symm.trans hrefuses)
          cases hgoesOn.symm.trans hretry
        exact ⟨hstarts, ⟨d, htext, hbehind, hfails⟩, map_line_ofDefinition _, filterMap_query?_ofDefinition _⟩

/-- A mutation leaves a line but makes no operation, and a query that breaks off leaves none. -/
theorem parseLogged_mutation_broken :
    (∃ front rest, LogsSuccess front [.query (.ofHead ⟨1, 1⟩ .query (some ⟨"a"⟩) []), .mutation ⟨1, 5⟩] rest
      ⟨[.ofHead ⟨1, 1⟩ .query (some ⟨"a"⟩) []], []⟩ (parseLogged ⟨64, 64⟩ "{a} mutation b").1) ∧
    (∃ front rest, LogsFailure "{a} query b(" front [.query (.ofHead ⟨1, 1⟩ .query (some ⟨"a"⟩) [])] rest
      (.mismatch 12 ⟨1, 13⟩ (.one "')'")) (parseLogged ⟨64, 64⟩ "{a} query b(").1) ∧
    (parseLogged ⟨4, 64⟩ "{a} {b}").1 = [] := by
  refine ⟨?_, ?_, (parseLogged_tells ⟨4, 64⟩ "{a} {b}").2.1 (by decide)⟩
  · have hread : (read .standard ⟨64, 64⟩ "{a} mutation b").1 =
        [.query (.ofHead ⟨1, 1⟩ .query (some ⟨"a"⟩) []), .mutation ⟨1, 5⟩] := by
      with_unfolding_all rfl
    obtain ⟨front, rest, -, hlog, -⟩ := (parseLogged_tells ⟨64, 64⟩ "{a} mutation b").2.2 (by decide)
    exact ⟨front, rest, hread ▸ hlog _ (by with_unfolding_all rfl)⟩
  · have hread : (read .standard ⟨64, 64⟩ "{a} query b(").1 = [.query (.ofHead ⟨1, 1⟩ .query (some ⟨"a"⟩) [])] := by
      with_unfolding_all rfl
    obtain ⟨front, rest, -, -, hlog⟩ := (parseLogged_tells ⟨64, 64⟩ "{a} query b(").2.2 (by decide)
    exact ⟨front, rest, hread ▸ hlog _ (by with_unfolding_all rfl)⟩

end Document

end RequestDoc

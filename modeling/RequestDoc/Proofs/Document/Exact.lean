import RequestDoc.Proofs.Document.Complete
import RequestDoc.Proofs.Document.Sound

/-!
Parsing documents is exact. The repetition of definitions ends exactly where no definition starts: where one
does, its first word is read, and an error that is met behind that word ends the parse. So a text is parsed
if it is a row of definitions with something behind it that no definition starts, and its document holds the
operations of the queries among them.
-/

namespace RequestDoc

open Grammar

variable {α β : Type} {s : Strategy} {c d : Cursor}

namespace Rule

/-! ### No way back behind a word -/

/-- Behind the first word of a form there is no way back. -/
theorem final_of_token (hc : s.Committed) {t : Token} {next : Unit → Rule β} (hm : ∀ u, (next u).Moves)
    {rest : List Char} (h : c.rest = t.text.toList ++ rest) (hk : t.isKeyword = true → NameEnds rest) :
    Final s.retry c ((token t >>= next) c) := by
  have hread : token t c = .ok ((), (c.past t.text.toList).skipBlanks) := by
    refine token_eq_ok.mpr (Lexeme.token_eq_ok_iff.mpr ⟨⟨⟨rest, h⟩, rfl⟩, fun hkw => ?_⟩)
    rw [h, List.drop_left]
    exact hk hkw
  obtain ⟨text, ⟨w, -, rfl⟩, hr, -⟩ := reads_token hread
  intro err herr
  rw [bind_of_ok hread] at herr
  rw [hc]
  exact ((hm ()).meets herr).failsAt_eq_false hr (List.append_ne_nil_of_left_ne_nil t.text_ne_nil w)

theorem final_queryForm (hc : s.Committed) {f : QueryForm} (hf : f.Starts c.rest) :
    Final s.retry c (queryForm s f c) := by
  cases f with
  | shorthand =>
    obtain ⟨rest, hrest⟩ := List.head?_eq_some_iff.mp hf
    have hbrace : c.rest = Token.openBrace.text.toList ++ rest := hrest
    refine Final.placed (final_of_token hc (fun _ => ?_) hbrace (fun hk => nomatch hk))
    exact moves_name.bind fun _ => (moves_token _).bind fun _ => moves_pure _
  | declared =>
    obtain ⟨rest, hrest, hends⟩ := hf
    refine Final.placed (final_of_token hc (fun _ => ?_) hrest (fun _ => hends))
    exact moves_name.bind fun _ => (moves_declarations s).maybe.bind fun _ => (moves_token _).bind fun _ => moves_pure _

theorem final_definitionForm (hs : s.Thorough) (hc : s.Committed) {f : DefinitionForm} (hf : f.Starts c.rest) :
    Final s.retry c (definitionForm s f c) := by
  cases f with
  | query =>
    obtain ⟨g, hg⟩ := hf
    intro err herr
    rcases bind_eq_error.mp herr with hquery | ⟨_, _, _, hpure⟩
    · rw [query_of_form hs hg rfl (final_queryForm hc hg)] at hquery
      exact final_queryForm hc hg err hquery
    · cases hpure
  | mutation =>
    obtain ⟨rest, hrest, hends⟩ := hf
    exact Final.placed (final_of_token hc (fun _ => moves_pure _) hrest (fun _ => hends))

/-- The repetition of definitions ends exactly where no definition starts. -/
theorem stops_definition_iff (hs : s.Thorough) (hc : s.Committed) (hv : c.Valid) :
    Stops s.retry (definition s) c ↔ ¬DefinitionStarts c.rest := by
  constructor
  · rintro (⟨x, d, hx, hstay⟩ | ⟨err, herr, hretry⟩) hstarts
    · obtain ⟨text, hne, hr, -, -⟩ := definition_eq_ok hx
      exact hstay (hr.left_lt hv hne)
    · obtain ⟨f, hf⟩ := definitionStarts_iff.mp hstarts
      have hfinal := final_definitionForm hs hc hf
      rw [definition_of_form hs hf rfl hfinal] at herr
      rw [hfinal err herr] at hretry
      cases hretry
  · intro h
    exact Or.inr ((refuses_definition h).yields hs)

theorem collect_definition_iff (hs : s.Thorough) (hc : s.Committed) {text : List Char} (htext : c.rest = text)
    (hflush : Flush text) (hv : c.Valid) (hroom : c.Roomy) (ds : List Definition) :
    (∃ d, collect s.retry (definition s) c = (ds, .ok d)) ↔
      ∃ rest, Definitions c.position text ds rest ∧ ¬DefinitionStarts rest ∧ Flush rest := by
  subst htext
  constructor
  · rintro ⟨d, h⟩
    obtain ⟨hrun, hstops⟩ := collect_eq_ok_iff.mp h
    obtain ⟨hdefs, hend⟩ := definitions_of_run hrun hflush
    obtain ⟨text, hr⟩ := (moves_definition s).run hrun
    exact ⟨d.rest, hdefs, (stops_definition_iff hs hc (hr.valid hv)).mp hstops, hend⟩
  · rintro ⟨rest, hdefs, hnone, hend⟩
    obtain ⟨d, hrun, rfl⟩ := run_of_definitions hs hdefs rfl rfl hend hv hroom
    obtain ⟨text, hr⟩ := (moves_definition s).run hrun
    exact ⟨d, collect_eq_ok_iff.mpr ⟨hrun, (stops_definition_iff hs hc (hr.valid hv)).mpr hnone⟩⟩

end Rule

/-! ### Whole texts -/

namespace Document

variable {limits : Limits} {text : String}

theorem parseBy_eq_ok_iff (hsize : text.utf8ByteSize ≤ limits.textSize) {doc : Document} :
    parseBy s limits text = .ok doc ↔
      ∃ ds d, Rule.collect s.retry (Rule.definition s) (Cursor.entry limits text) = (ds, .ok d) ∧
        doc = ofDefinitions ds := by
  rw [parseBy, read_eq_collect hsize]
  obtain ⟨ds, out⟩ := Rule.collect s.retry (Rule.definition s) (Cursor.entry limits text)
  constructor
  · intro h
    cases out with
    | error err => cases h
    | ok d => exact ⟨ds, d, rfl, (Except.ok.inj h).symm⟩
  · rintro ⟨_, d, h, rfl⟩
    obtain ⟨rfl, rfl⟩ := Prod.mk.inj h
    rfl

/-- A query behind definitions, which are read, and in front of the end of the text. -/
theorem parse_of_run {ds : List Definition} {query : List Char} {op : Operation} (hsize : text.utf8ByteSize ≤ limits.textSize)
    (hrun : Rule.Run (Rule.definition .standard) (Cursor.entry limits text) ds c) (htext : c.rest = query)
    (hquery : QueryWithin limits.depth c.position query op) :
    Document.parse limits text = .ok ⟨ds.filterMap Definition.operation? ++ [op], []⟩ := by
  have hs := Strategy.thorough_standard
  obtain ⟨read, hread⟩ := (Rule.moves_definition .standard).run hrun
  have hv := hread.valid (Cursor.valid_entry limits text)
  have hdepth : c.depth = 0 := hread.depth
  have hlimit : c.depthLimit = limits.depth := hread.depthLimit
  have hrest : c.rest = query ++ [] := by rw [htext, List.append_nil]
  have hr := Cursor.Reads.of_rest hrest
  have hend := Cursor.rest_past hrest
  have hok := Rule.query_of_text hs hquery hv (by omega) hr (hend ▸ flush_nil)
  have hstarts : DefinitionForm.query.Starts c.rest := hrest ▸ Rule.query_starts hquery.query []
  have hdefinition : Rule.definition .standard c = .ok (.query op, _) :=
    Rule.definition_of_form hs hstarts (Rule.bind_eq_ok.mpr ⟨op, _, hok, rfl⟩) Rule.final_ok
  have hlast := Rule.Run.cons hdefinition (hr.left_lt hv (query_ne_nil hquery.query)) (.nil _)
  have hstops : Rule.Stops Strategy.standard.retry (Rule.definition .standard) (c.past query) := by
    refine (Rule.stops_definition_iff hs Strategy.committed_standard (hr.valid hv)).mpr ?_
    rw [hend]
    exact not_definitionStarts_nil
  rw [parse, parseBy_eq_ok_iff hsize]
  refine ⟨_, _, Rule.collect_eq_ok_iff.mpr ⟨hrun.append hlast, hstops⟩, ?_⟩
  simp [ofDefinitions, ofOperations, List.filterMap_append, Definition.operation?]

/-- A definition that fails behind other ones, with no other way to go on. -/
theorem parse_of_failure {ds : List Definition} {err : ParseError} (hsize : text.utf8ByteSize ≤ limits.textSize)
    (hrun : Rule.Run (Rule.definition .standard) (Cursor.entry limits text) ds c)
    (herr : Rule.definition .standard c = .error err) (hretry : Strategy.standard.retry err c.offset = false) :
    Document.parse limits text = .error err := by
  rw [parse, parseBy, read_eq_collect hsize, Rule.collect_eq_error.mpr ⟨c, hrun, herr, hretry⟩]
  rfl

/-- With room for its size and its brackets, a text is parsed as a document exactly if it is a row of definitions,
blanks in front allowed, before a rest that no definition starts. The document has the queries of the row, in order.
-/
theorem parse_eq_ok_iff_definitions (hsize : text.utf8ByteSize ≤ limits.textSize)
    (hdepth : text.length ≤ limits.depth) (doc : Document) :
    Document.parse limits text = .ok doc ↔
      ∃ w defs ds rest, Blanks w ∧ text.toList = w ++ defs ∧ Definitions (Position.first.advance w) defs ds rest ∧
        ¬DefinitionStarts rest ∧ Flush rest ∧ doc = ⟨ds.filterMap Definition.operation?, []⟩ := by
  have hcollect := fun {defs} (hrest : (Cursor.entry limits text).rest = defs) (hflush : Flush defs) =>
    Rule.collect_definition_iff Strategy.thorough_standard Strategy.committed_standard hrest hflush
      (Cursor.valid_entry limits text) (Cursor.roomy_entry hdepth)
  rw [parse, parseBy_eq_ok_iff hsize]
  constructor
  · rintro ⟨ds, d, h, rfl⟩
    obtain ⟨w, hw, hentry⟩ := Cursor.reads_entry limits text
    obtain ⟨rest, hdefs, hnone, hend⟩ := (hcollect rfl (Cursor.flush_entry limits text) ds).mp ⟨d, h⟩
    rw [hentry.position] at hdefs
    exact ⟨w, _, ds, rest, hw, hentry.rest, hdefs, hnone, hend, rfl⟩
  · rintro ⟨w, defs, ds, rest, hw, htext, hdefs, hnone, hend, rfl⟩
    have hflush := Rule.flush_definitions hdefs hend
    obtain ⟨hentry, hrest⟩ := Cursor.reads_entry_of_eq limits hw htext hflush
    rw [show Position.first.advance w = (Cursor.entry limits text).position from hentry.position.symm] at hdefs
    obtain ⟨d, h⟩ := (hcollect hrest hflush ds).mpr ⟨rest, hdefs, hnone, hend⟩
    exact ⟨ds, d, h, rfl⟩

/-- A mutation makes no operation, and what follows it is ignored. -/
theorem parse_query_mutation :
    Document.parse ⟨64, 64⟩ " {a} mutation b" = .ok ⟨[.ofHead ⟨1, 2⟩ .query (some ⟨"a"⟩) []], []⟩ := by
  have hname : Named ['a'] "a" := ⟨Lexeme.isName_of_all rfl rfl, .self _⟩
  refine (parse_eq_ok_iff_definitions (by decide) (by decide) _).mpr
    ⟨[' '], _, [.query (.ofHead ⟨1, 2⟩ .query (some ⟨"a"⟩) []), .mutation ⟨1, 6⟩], ['b'], by decide, rfl, ?_, ?_, ?_, rfl⟩
  · exact .query (.shorthand (.self _) hname ⟨[' '], by decide, rfl⟩)
      (.mutation (w := [' ']) (by decide) (nameEnds_blank (by decide) (by decide) _) .none)
  · rintro (hbrace | hquery | hmutation)
    · exact nomatch Option.some.inj hbrace
    · exact nomatch Option.some.inj (head?_of_keywordStarts hquery)
    · exact nomatch Option.some.inj (head?_of_keywordStarts hmutation)
  · exact flush_cons (by decide)

end Document

end RequestDoc

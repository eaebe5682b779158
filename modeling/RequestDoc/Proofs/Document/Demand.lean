import RequestDoc.Proofs.Document.Complete
import RequestDoc.Proofs.Document.Sound
import RequestDoc.Proofs.Literal.Demand
import RequestDoc.Proofs.Rule.Whole
import RequestDoc.Proofs.TypeRef.Demand

/-!
Where a type or a value is due in a query. A type is due behind the colon of a variable, and a value behind the equals
sign of a default. An error of a definition that does not stand at its start asks for a type or a value exactly where
one is due in this sense and does not start.
-/

namespace RequestDoc

open Grammar Nesting

variable {s : Strategy} {c d : Cursor} {demand : Demand} {due : List Char} {err : ParseError}

namespace Grammar

/-- The text declares a variable, wherever it stands. -/
def IsDeclaration (text : List Char) : Prop :=
  ∃ place v, Declaration place text v

/-- Behind the text, which is the start of a declaration, something is due. -/
inductive DueInDeclaration (demand : Demand) : List Char → Prop where
  | type {dollar nameText colon inner : List Char} {name : String} :
      Punctuation .dollar dollar → Named nameText name → Punctuation .colon colon → DueInReference demand inner →
      DueInDeclaration demand (dollar ++ (nameText ++ colon) ++ inner)
  | value {dollar nameText colon typeText equals inner : List Char} {name : String} {type : TypeRef} :
      Punctuation .dollar dollar → Named nameText name → Punctuation .colon colon → Reference typeText type →
      Punctuation .equals equals → DueInLiteral demand inner →
      DueInDeclaration demand (dollar ++ (nameText ++ colon) ++ (typeText ++ (equals ++ inner)))

/-- Behind the text, which is the start of declarations in parentheses, something is due. -/
inductive DueInParameters (demand : Demand) : List Char → Prop where
  | mk {left row inner : List Char} :
      Punctuation .openParen left → CommaEnded IsDeclaration row → DueInDeclaration demand inner →
      DueInParameters demand (left ++ (row ++ inner))

/-- Behind the text, which is the start of a query, something is due. -/
inductive DueInQuery (demand : Demand) : List Char → Prop where
  | mk {keyword nameText parameters : List Char} {name : String} :
      Punctuation .query keyword → keyword ≠ Token.query.text.toList → Named nameText name →
      DueInParameters demand parameters → DueInQuery demand (keyword ++ (nameText ++ parameters))

/-- Behind the text, which starts at a place and is the definitions of a document and the start of one more query, something
is due in that query. -/
inductive DueInDocument (place : Position) (demand : Demand) : List Char → List Char → Prop where
  | mk {read due rest : List Char} {ds : List Definition} :
      Definitions place (read ++ (due ++ rest)) ds (due ++ rest) → DueInQuery demand due →
      DueInDocument place demand (read ++ due) rest

theorem Declaration.elsewhere {place : Position} {text : List Char} {v : Variable} (h : Declaration place text v)
    (other : Position) : ∃ v, Declaration other text v := by
  obtain ⟨hdollar, hname, hcolon, htype, hdefault⟩ := h
  exact ⟨_, .mk hdollar hname hcolon htype hdefault⟩

theorem flush_isDeclaration {text rest : List Char} (h : IsDeclaration text) : Flush (text ++ rest) := by
  obtain ⟨_, _, hdecl⟩ := h
  exact (apart_of_head (Rule.head?_declaration hdecl rest) (by decide)).flush

theorem head?_dueInDeclaration (h : DueInDeclaration demand due) (rest : List Char) : (due ++ rest).head? = some '$' := by
  cases h with
  | type hdollar _ _ _ =>
    simp only [List.append_assoc]
    exact head?_punctuation hdollar _
  | value hdollar _ _ _ _ _ =>
    simp only [List.append_assoc]
    exact head?_punctuation hdollar _

theorem ne_nil_of_dueInDeclaration (h : DueInDeclaration demand due) : due ≠ [] := by
  rintro rfl
  cases head?_dueInDeclaration h []

theorem flush_dueInDeclaration (h : DueInDeclaration demand due) (rest : List Char) : Flush (due ++ rest) :=
  (apart_of_head (head?_dueInDeclaration h rest) (by decide)).flush

theorem head?_dueInParameters (h : DueInParameters demand due) (rest : List Char) : (due ++ rest).head? = some '(' := by
  obtain ⟨hl, -, -⟩ := h
  rw [List.append_assoc]
  exact head?_punctuation hl _

theorem ne_nil_of_dueInParameters (h : DueInParameters demand due) : due ≠ [] := by
  rintro rfl
  cases head?_dueInParameters h []

theorem starts_dueInQuery (h : DueInQuery demand due) (rest : List Char) : QueryForm.declared.Starts (due ++ rest) := by
  obtain @⟨keyword, nameText, parameters, name, hk, hne, -, -⟩ := h
  obtain ⟨w, hw, hblank, rfl⟩ := Rule.blanks_of_keyword hk hne
  refine ⟨w ++ (nameText ++ (parameters ++ rest)), ?_, nameEnds_blank hw hblank _⟩
  simp only [List.append_assoc]

theorem ne_nil_of_dueInQuery (h : DueInQuery demand due) : due ≠ [] := by
  obtain ⟨hk, -, -, -⟩ := h
  exact Rule.ne_nil_of_mark hk _

theorem flush_dueInQuery (h : DueInQuery demand due) (rest : List Char) : Flush (due ++ rest) := by
  have hstarts : DefinitionForm.query.Starts (due ++ rest) := ⟨_, starts_dueInQuery h rest⟩
  exact hstarts.flush

theorem flush_dueInDocument {place : Position} {rest : List Char} (h : DueInDocument place demand due rest) :
    Flush (due ++ rest) := by
  obtain ⟨hdefinitions, hdue⟩ := h
  rw [List.append_assoc]
  exact Rule.flush_definitions hdefinitions (flush_dueInQuery hdue rest)

end Grammar

namespace Rule

/-! ### What the errors of a definition ask for -/

theorem asks_declaration (hc : c.Valid) : (declaration .standard).Asks c DueInDeclaration := by
  refine Asks.placed (asks_token_bind fun {c1 dollar} _ hdollar h1 _ => asks_name_bind fun {name c2 nameText} hname h2 _ =>
    asks_token_bind fun {c3 colon} _ hcolon h3 hflush3 => ?_)
  have h123 := (h1.trans h2).trans h3
  refine Asks.bind (fun err herr => (asks_typeRef hflush3 err herr).mono fun hdue _ => ?_) (moves_typeRef _)
    fun {type c4 typeText} hread h4 => ?_
  · rw [← List.append_assoc nameText, ← List.append_assoc dollar]
    exact .type hdollar hname hcolon hdue
  · obtain ⟨typeText', htype, h4', -, -⟩ := reference_of_typeRefWithin hread
    obtain rfl := h4.text_unique h4'
    refine Asks.bind (Asks.maybe (asks_token_bind fun {c5 equals} _ hequals h5 hflush5 err herr => ?_))
      ((moves_token _).bind fun _ => moves_literal _).maybe fun _ _ => asks_pure _
    refine (asks_literal (((h123.trans h4).trans h5).valid hc) hflush5 err herr).mono fun hdue _ => ?_
    rw [← List.append_assoc nameText, ← List.append_assoc dollar]
    exact .value hdollar hname hcolon htype hequals hdue

theorem asks_declarations (hc : c.Valid) : (declarations .standard).Asks c DueInParameters := by
  have hm := moves_declaration .standard
  refine asks_token_bind fun {c1 left} _ hl h1 _ => ?_
  have hvalid := h1.valid hc
  refine asks_row Strategy.committed_standard hm hvalid fun {vs e text err} hleading hr herr _ => ?_
  obtain ⟨hrow, -⟩ := commaEnded_of_leading IsDeclaration hm (fun hread hr => by
    obtain ⟨text', hdecl, hr', -⟩ := declaration_eq_ok hread
    exact ⟨_, _, hr.text_unique hr' ▸ hdecl⟩) hleading hr
  exact (asks_declaration (hr.valid hvalid) err herr).mono fun hdue _ => .mk hl hrow hdue

theorem asks_queryForm (hc : c.Valid) (f : QueryForm) : (queryForm .standard f).Asks c DueInQuery := by
  cases f with
  | shorthand =>
    exact Asks.placed (asks_token_bind fun _ _ _ _ => asks_name_bind fun _ _ _ => asks_token_bind fun _ _ _ _ => asks_pure _)
  | declared =>
    refine Asks.placed (asks_token_bind fun {c1 keyword} hquery hk h1 _ => asks_name_bind fun {name c2 nameText} hname h2 _ => ?_)
    have hne : keyword ≠ Token.query.text.toList := by
      obtain ⟨hn, w, -, rfl⟩ := hname
      exact keyword_ne_of_name hquery h1 hn (h2.rest.trans (List.append_assoc ..))
    refine Asks.bind (Asks.maybe fun err herr => ?_) (moves_declarations _).maybe fun _ _ =>
      asks_token_bind fun _ _ _ _ => asks_pure _
    exact (asks_declarations ((h1.trans h2).valid hc) err herr).mono fun hdue _ => .mk hk hne hname hdue

theorem asks_query (hc : c.Valid) (h : query .standard c = .error err) (hfails : err.failsAt c.offset = false) :
    c.Asks DueInQuery err := by
  have hs := Strategy.committed_standard
  have htold : ∀ f : QueryForm, Told f.firsts (queryForm .standard f) := fun f => by
    rw [← Script.run_queryForm]
    exact told_queryForm f
  have hstarts := Classical.not_not.mp (mt ((told_query hs).failsAt_iff h).mpr (by rw [hfails]; decide))
  obtain ⟨f, -, hform, -⟩ := form_of_choice_eq_error hs htold hstarts h
  exact asks_queryForm hc f err hform

/-- An error of a definition behind its start asks for what is due in a query. -/
theorem asks_definition (hc : c.Valid) (h : definition .standard c = .error err) (hfails : err.failsAt c.offset = false) :
    c.Asks DueInQuery err := by
  have hs := Strategy.committed_standard
  have htold : ∀ f : DefinitionForm, Told (f.firsts .standard) (definitionForm .standard f) := fun f => by
    rw [← Script.run_definitionForm]
    exact told_definitionForm hs f
  have hstarts := Classical.not_not.mp (mt ((told_definition hs).failsAt_iff h).mpr (by rw [hfails]; decide))
  obtain ⟨f, -, hform, hfails⟩ := form_of_choice_eq_error hs htold hstarts h
  cases f with
  | query =>
    rcases bind_eq_error.mp hform with hquery | ⟨_, _, _, hlast⟩
    · exact asks_query hc hquery hfails
    · cases hlast
  | mutation =>
    have hasks : (definitionForm .standard .mutation).Asks c DueInQuery :=
      Asks.placed (asks_token_bind fun _ _ _ _ => asks_pure _)
    exact hasks err hform

/-- The definitions in front of the one that fails have been read. -/
theorem asks_document (hc : c.Valid) (hflush : Flush c.rest) :
    (document .standard).Asks c fun demand read => ∀ rest, c.rest = read ++ rest → DueInDocument c.position demand read rest := by
  refine Asks.bind (fun err herr => ?_) (moves_definition _).many fun _ _ => asks_pure _
  obtain ⟨ds, d, hrun, hdefinition, hfails⟩ := many_eq_error.mp herr
  obtain ⟨text, hr⟩ := (moves_definition _).run hrun
  obtain ⟨hdefinitions, -⟩ := definitions_of_run hrun hflush
  refine .of_reads hr ((asks_definition (hr.valid hc) hdefinition hfails).mono fun {demand due} hdue _ rest hrest => ?_)
  rw [hr.rest, List.append_assoc] at hrest
  rw [hr.rest, List.append_cancel_left hrest] at hdefinitions
  exact .mk hdefinitions hdue

/-! ### Where a type or a value is due and does not start -/

/-- Behind the colon of a variable its declaration goes on with a type. -/
theorem declaration_behind_colon {dollar nameText colon : List Char} {name : String} (hdollar : Punctuation .dollar dollar)
    (hname : Named nameText name) (hcolon : Punctuation .colon colon) (hr : c.Reads (dollar ++ (nameText ++ colon)) d)
    (hd : Flush d.rest) : declaration s c = (do
      let type ← typeRef s
      let value ← maybe s.retry (defaultValue s)
      return ⟨c.position, ⟨name⟩, type, value⟩ : Rule Variable) d := by
  obtain ⟨c1, h1, hr⟩ := hr.split
  obtain ⟨c2, h2, h3⟩ := hr.split
  have hapart2 : Apart c2.rest := h3.rest ▸ apart_punctuation rfl hcolon d.rest
  have hread1 := token_of_mark rfl hdollar h1 (h2.rest ▸ Lexeme.flush_named hname c2.rest)
  have hread2 := Lexeme.name_of_reads hname h2 hapart2
  have hread3 := token_of_mark rfl hcolon h3 hd
  exact (bind_of_ok rfl).trans ((bind_of_ok hread1).trans ((bind_of_ok (lexeme_eq_ok.mpr hread2)).trans (bind_of_ok hread3)))

/-- Where brackets have room and something is due and does not start, a declaration fails and asks for it. -/
theorem declaration_of_due (h : DueInDeclaration demand due) (hr : c.Reads due d) (hd : Flush d.rest)
    (hnone : ¬AnyStarts demand.firsts d.rest) (hv : c.Valid) (hroom : c.Roomy) :
    declaration .standard c = .error (.mismatch d.offset d.position demand.expected) := by
  have hs := Strategy.thorough_standard
  cases h with
  | type hdollar hname hcolon hdue =>
    obtain ⟨c3, h123, h4⟩ := hr.split
    rw [declaration_behind_colon hdollar hname hcolon h123 (h4.rest ▸ flush_dueInReference hdue hd)]
    exact bind_of_error (typeRef_of_due hdue h4 hd hnone (h123.valid hv) (h123.roomy hroom))
  | value hdollar hname hcolon htype hequals hdue =>
    obtain ⟨c3, h123, hr⟩ := hr.split
    obtain ⟨c4, h4, h56⟩ := hr.split
    obtain ⟨c5, h5, h6⟩ := h56.split
    have h14 := h123.trans h4
    have h15 := h14.trans h5
    have hhead : c4.rest.head? = some '=' := h5.rest ▸ head?_punctuation hequals c5.rest
    have hread4 := typeRef_of_roomy hs htype (h123.roomy hroom) h4 (apart_of_head hhead (by decide)) (by rw [hhead]; decide)
    have hread5 := token_of_mark rfl hequals h5 (h6.rest ▸ flush_dueInLiteral hdue hd)
    have herr := literal_of_due hdue h6 hd hnone (h15.valid hv) (h15.roomy hroom)
    have hdefault : defaultValue .standard c4 = _ := (bind_of_ok hread5).trans herr
    have hmaybe := maybe_eq_error.mpr ⟨hdefault, failsAt_behind h56 (ne_nil_of_mark hequals _) demand.expected⟩
    rw [declaration_behind_colon hdollar hname hcolon h123 (h4.rest ▸ TypeRef.flush_reference htype c4.rest),
      bind_of_ok hread4]
    exact bind_of_error hmaybe

/-- Where brackets have room, a declaration in front of a comma is read. -/
theorem declaration_of_isDeclaration (hs : s.Thorough) {text : List Char} (h : IsDeclaration text) (hv : c.Valid)
    (hroom : c.Roomy) (hr : c.Reads text d) (hcomma : d.rest.head? = some ',') : ∃ v, declaration s c = .ok (v, d) := by
  obtain ⟨place, v, hdecl⟩ := h
  obtain ⟨v, hdecl⟩ := hdecl.elsewhere c.position
  obtain ⟨n, hn, -⟩ := closed_declaration hdecl
  have hlength := hroom.le hr
  have hlevels := deepest_le_length text
  rw [hn.deepest_eq] at hlevels
  exact ⟨v, declaration_of_text hs hdecl hn hv (by omega) hr (Or.inl hcomma)⟩

theorem declarations_of_due (h : DueInParameters demand due) (hr : c.Reads due d) (hd : Flush d.rest)
    (hnone : ¬AnyStarts demand.firsts d.rest) (hv : c.Valid) (hroom : c.Roomy) :
    declarations .standard c = .error (.mismatch d.offset d.position demand.expected) := by
  have hs := Strategy.thorough_standard
  obtain ⟨hl, hrow, hdue⟩ := h
  obtain ⟨c1, h1, hr⟩ := hr.split
  obtain ⟨c2, h2, h3⟩ := hr.split
  have hflush2 : Flush c2.rest := h3.rest ▸ flush_dueInDeclaration hdue d.rest
  have hflush1 : Flush c1.rest := h2.rest ▸ flush_commaEnded flush_isDeclaration hrow hflush2
  have hv1 := h1.valid hv
  have hroom1 := h1.roomy hroom
  obtain ⟨vs, hleading, -⟩ := leading_of_commaEnded flush_isDeclaration (declaration_of_isDeclaration hs) hrow h2 hflush2
    hv1 hroom1
  have herr := declaration_of_due hdue h3 hd hnone (h2.valid hv1) (h2.roomy hroom1)
  have hitems := (sepBy_eq_error_iff Strategy.committed_standard (moves_declaration .standard) hv1).mpr
    ⟨vs, c2, hleading, herr, fun _ => failsAt_behind h3 (ne_nil_of_dueInDeclaration hdue) demand.expected⟩
  exact (bind_of_ok (token_of_mark rfl hl h1 hflush1)).trans (bind_of_error hitems)

/-- Where brackets have room and something is due in a query and does not start, a definition fails and asks for it. -/
theorem definition_of_due (h : DueInQuery demand due) (hr : c.Reads due d) (hd : Flush d.rest)
    (hnone : ¬AnyStarts demand.firsts d.rest) (hv : c.Valid) (hroom : c.Roomy) :
    definition .standard c = .error (.mismatch d.offset d.position demand.expected) := by
  have hs := Strategy.thorough_standard
  have hstarts : QueryForm.declared.Starts c.rest := hr.rest ▸ starts_dueInQuery h d.rest
  have hfails := failsAt_behind hr (ne_nil_of_dueInQuery h) demand.expected
  obtain ⟨hk, hne, hname, hdue⟩ := h
  obtain ⟨w, hw, hblank, rfl⟩ := blanks_of_keyword hk hne
  obtain ⟨c1, h1, h23⟩ := hr.split
  obtain ⟨c2, h2, h3⟩ := h23.split
  have h12 := h1.trans h2
  have hhead : c2.rest.head? = some '(' := h3.rest ▸ head?_dueInParameters hdue d.rest
  have hflush1 : Flush c1.rest := h2.rest ▸ Lexeme.flush_named hname c2.rest
  have hread1 : token .query c = .ok ((), c1) :=
    token_eq_ok.mpr (Lexeme.keyword_of_reads hw h1 hflush1 (nameEnds_blank hw hblank _))
  have hread2 := lexeme_eq_ok.mpr (Lexeme.name_of_reads hname h2 (apart_of_head hhead (by decide)))
  have herr := declarations_of_due hdue h3 hd hnone (h12.valid hv) (h12.roomy hroom)
  have hmaybe := maybe_eq_error.mpr ⟨herr, failsAt_behind h3 (ne_nil_of_dueInParameters hdue) demand.expected⟩
  have hform : queryForm .standard .declared c = _ :=
    (bind_of_ok rfl).trans ((bind_of_ok hread1).trans ((bind_of_ok hread2).trans (bind_of_error hmaybe)))
  have hquery := query_of_form hs hstarts hform (final_error hfails)
  exact definition_of_form hs (f := .query) ⟨_, hstarts⟩ (bind_of_error hquery) (final_error hfails)

theorem document_of_due (h : DueInDocument c.position demand due d.rest) (hr : c.Reads due d) (hd : Flush d.rest)
    (hnone : ¬AnyStarts demand.firsts d.rest) (hv : c.Valid) (hroom : c.Roomy) :
    document .standard c = .error (.mismatch d.offset d.position demand.expected) := by
  generalize hrest : d.rest = rest at h
  obtain ⟨hdefinitions, hdue⟩ := h
  obtain ⟨e, h1, h2⟩ := hr.split
  have hnext : e.rest = _ ++ rest := hrest ▸ h2.rest
  obtain ⟨e', hrun, he'⟩ := run_of_definitions Strategy.thorough_standard hdefinitions rfl (hnext ▸ h1.rest)
    (flush_dueInQuery hdue rest) hv hroom
  -- the run ends behind the definitions, since the same is left there
  obtain ⟨text, h1'⟩ := (moves_definition .standard).run hrun
  have hsame := h1'.rest
  rw [he', h1.rest, hnext] at hsame
  obtain rfl := List.append_cancel_right hsame
  obtain rfl := h1.unique h1'
  have herr := definition_of_due hdue h2 hd hnone (h1.valid hv) (h1.roomy hroom)
  exact bind_of_error (many_eq_error.mpr ⟨_, e, hrun, herr, failsAt_behind h2 (ne_nil_of_dueInQuery hdue) demand.expected⟩)

end Rule

end RequestDoc

import RequestDoc.Proofs.Document.Brackets

/-!
Every row of definitions is read. What follows each part of a definition starts with a mark or with the next
definition, so no name, no numeral and no exclamation mark goes on into it, and a part that is missing is
told by the mark that stands in its place. The inductions follow the grammar, with the place of the text
carried along as the place of the cursor. What declarations nest is bounded by what their text nests, so a query
is read under every limit that its parameters keep.
-/

namespace RequestDoc.Rule

open Grammar Nesting

variable {s : Strategy} {c d : Cursor} {n : Nat}

/-! ### Variables -/

/-- A mark that may follow a declaration starts the text. -/
def DeclarationEnds (text : List Char) : Prop :=
  text.head? = some ',' ∨ text.head? = some ')'

theorem DeclarationEnds.apart {text : List Char} (h : DeclarationEnds text) : Apart text := by
  rcases h with h | h
  · exact apart_of_head h (by decide)
  · exact apart_of_head h (by decide)

theorem DeclarationEnds.head?_ne {text : List Char} (h : DeclarationEnds text) {x : Char} (hcomma : x ≠ ',')
    (hparen : x ≠ ')') : text.head? ≠ some x := by
  intro hx
  rcases h with h | h
  · exact hcomma (Option.some.inj (hx.symm.trans h))
  · exact hparen (Option.some.inj (hx.symm.trans h))

/-- A default value starts with an equals sign, unless it is missing. -/
theorem head?_default {text : List Char} {o : Option Value} (h : Default text o) (rest : List Char) :
    (text ++ rest).head? = some '=' ∨ text = [] := by
  cases h with
  | none => exact Or.inr rfl
  | some he _ =>
    rw [List.append_assoc]
    exact Or.inl (head?_punctuation he _)

theorem apart_default {text rest : List Char} {o : Option Value} (h : Default text o) (hr : Apart rest) :
    Apart (text ++ rest) := by
  rcases head?_default h rest with hequals | rfl
  · exact apart_of_head hequals (by decide)
  · exact hr

theorem maybe_of_default (hs : s.Thorough) {text : List Char} {o : Option Value} (h : Default text o) (hn : Closed text n)
    (hv : c.Valid) (hdepth : c.depth + n ≤ c.depthLimit) (hr : c.Reads text d) (hd : DeclarationEnds d.rest) :
    maybe s.retry (defaultValue s) c = .ok (o, d) := by
  cases h with
  | none =>
    obtain rfl := hr.unique (.refl c)
    have hequals : (token .equals).Refuses d :=
      refuses_token_of_head (hd.head?_ne (by decide) (by decide))
    exact maybe_eq_ok.mpr (Or.inr ⟨rfl, rfl, (hequals.bind _).yields hs⟩)
  | some he hl =>
    obtain ⟨c1, h1, h2⟩ := hr.split
    obtain ⟨m, hm⟩ := closed_literal hl
    have hmax := hn.unique ((closed_mark he (by decide)).append hm)
    have hdepth1 := h1.depth
    have hlimit1 := h1.depthLimit
    have hequals := token_of_mark rfl he h1 (h2.rest ▸ flush_literal hl d.rest)
    have hvalue := literal_of_closed hs hl hm (h1.valid hv) (by omega) h2 hd.apart
    exact maybe_eq_ok.mpr (Or.inl ⟨_, rfl, bind_eq_ok.mpr ⟨(), c1, hequals, hvalue⟩⟩)

theorem head?_declaration {place : Position} {text : List Char} {v : Variable} (h : Declaration place text v)
    (rest : List Char) : (text ++ rest).head? = some '$' := by
  obtain ⟨hdollar, -, -, -, -⟩ := h
  simp only [List.append_assoc]
  exact head?_punctuation hdollar _

theorem declaration_of_text (hs : s.Thorough) {text : List Char} {v : Variable} (h : Declaration c.position text v)
    (hn : Closed text n) (hv : c.Valid) (hdepth : c.depth + n ≤ c.depthLimit) (hr : c.Reads text d)
    (hd : DeclarationEnds d.rest) : declaration s c = .ok (v, d) := by
  obtain ⟨hdollar, hname, hcolon, htype, hdefault⟩ := h
  obtain ⟨m, hm, -⟩ := closed_default hdefault
  have hhead := ((closed_mark hdollar (by decide)).append (closed_named hname)).append (closed_mark hcolon (by decide))
  have hmax := hn.unique ((hhead.append (closed_reference htype)).append hm)
  obtain ⟨c4, hr, h5⟩ := hr.split
  obtain ⟨c3, hr, h4⟩ := hr.split
  obtain ⟨c2, hr, h3⟩ := hr.split
  obtain ⟨c1, h1, h2⟩ := hr.split
  have h13 := (h1.trans h2).trans h3
  have h14 := h13.trans h4
  have hdepth3 := h13.depth
  have hlimit3 := h13.depthLimit
  have hdepth4 := h14.depth
  have hlimit4 := h14.depthLimit
  have hflush1 : Flush c1.rest := h2.rest ▸ Lexeme.flush_named hname c2.rest
  have hapart2 : Apart c2.rest := h3.rest ▸ apart_punctuation rfl hcolon c3.rest
  have hflush3 : Flush c3.rest := h4.rest ▸ TypeRef.flush_reference htype c4.rest
  have hapart4 : Apart c4.rest := h5.rest ▸ apart_default hdefault hd.apart
  have hbang : c4.rest.head? ≠ some '!' := by
    rw [h5.rest]
    rcases head?_default hdefault d.rest with hequals | rfl
    · rw [hequals]
      decide
    · exact hd.head?_ne (by decide) (by decide)
  have hread1 := token_of_mark rfl hdollar h1 hflush1
  have hread2 := Lexeme.name_of_reads hname h2 hapart2
  have hread3 := token_of_mark rfl hcolon h3 hflush3
  have hread4 := typeRef_of_reference hs htype (by omega) h4 hapart4 hbang
  have hread5 := maybe_of_default hs hdefault hm (h14.valid hv) (by omega) h5 hd
  exact bind_eq_ok.mpr ⟨c.position, c, rfl, bind_eq_ok.mpr ⟨(), c1, hread1,
    bind_eq_ok.mpr ⟨_, c2, lexeme_eq_ok.mpr hread2, bind_eq_ok.mpr ⟨(), c3, hread3,
      bind_eq_ok.mpr ⟨_, c4, hread4, bind_eq_ok.mpr ⟨_, d, hread5, rfl⟩⟩⟩⟩⟩⟩

theorem flush_declarations {place : Position} {text rest : List Char} {vs : List Variable}
    (h : Declarations place text vs) (hr : Flush rest) : Flush (text ++ rest) := by
  have hdeclared : ∀ {place text v more}, Declaration place text v → Flush (text ++ more) := fun hv =>
    (apart_of_head (head?_declaration hv _) (by decide)).flush
  cases h with
  | none => exact hr
  | one hv => exact hdeclared hv
  | more hv _ _ =>
    simp only [List.append_assoc]
    exact hdeclared hv

theorem items_of_declarations (hs : s.Thorough) {place : Position} {text : List Char} {vs : List Variable}
    (h : Declarations place text vs) (hn : Closed text n) (hpos : c.position = place) (hv : c.Valid)
    (hdepth : c.depth + n ≤ c.depthLimit) (hr : c.Reads text d) (hd : d.rest.head? = some ')') :
    Items (declaration s) c vs d := by
  induction h generalizing c n with
  | none =>
    obtain rfl := hr.unique (.refl c)
    exact .none _
  | one hdecl =>
    subst hpos
    exact .one (declaration_of_text hs hdecl hn hv hdepth hr (Or.inr hd))
  | more hdecl hcomma hmore ih =>
    subst hpos
    obtain ⟨c2, h12, h3⟩ := hr.split
    obtain ⟨c1, h1, h2⟩ := h12.split
    obtain ⟨k, hk, -⟩ := closed_declaration hdecl
    obtain ⟨m, hm, -⟩ := closed_declarations hmore
    have hmax := hn.unique ((hk.append (closed_mark hcomma (by decide))).append hm)
    have hdepth2 := h12.depth
    have hlimit2 := h12.depthLimit
    have hends : DeclarationEnds c1.rest := Or.inl (h2.rest ▸ head?_punctuation hcomma c2.rest)
    have hflush : Flush c2.rest := h3.rest ▸ flush_declarations hmore (apart_of_head hd (by decide)).flush
    exact .more (declaration_of_text hs hdecl hk hv (by omega) h1 hends)
      (Lexeme.mark_of_reads rfl hcomma h2 hflush)
      (ih hm h12.position (h12.valid hv) (by omega) h3)

theorem apart_parameters {place : Position} {text rest : List Char} {vs : List Variable}
    (h : Parameters place text vs) (hr : rest.head? = some '{') : Apart (text ++ rest) := by
  cases h with
  | none => exact apart_of_head hr (by decide)
  | some hl _ _ =>
    simp only [List.append_assoc]
    exact apart_punctuation rfl hl _

theorem maybe_of_parameters (hs : s.Thorough) {text : List Char} {vs : List Variable}
    (h : Parameters c.position text vs) (hn : Closed text n) (hv : c.Valid) (hdepth : c.depth + n ≤ c.depthLimit)
    (hr : c.Reads text d) (hd : d.rest.head? = some '{') :
    ∃ o, maybe s.retry (declarations s) c = .ok (o, d) ∧ o.getD [] = vs := by
  cases h with
  | none =>
    obtain rfl := hr.unique (.refl c)
    have hparen : (token .openParen).Refuses d := refuses_token_of_head (by rw [hd]; decide)
    exact ⟨none, maybe_eq_ok.mpr (Or.inr ⟨rfl, rfl, (hparen.bind _).yields hs⟩), rfl⟩
  | some hl hi hright =>
    obtain ⟨c2, h12, h3⟩ := hr.split
    obtain ⟨c1, h1, h2⟩ := h12.split
    obtain ⟨m, hm, -⟩ := closed_declarations hi
    have hmax := hn.unique (((closed_mark hl (by decide)).append hm).append (closed_mark hright (by decide)))
    have hdepth1 := h1.depth
    have hlimit1 := h1.depthLimit
    have hparen : c2.rest.head? = some ')' := h3.rest ▸ head?_punctuation hright d.rest
    have hflush1 : Flush c1.rest := h2.rest ▸ flush_declarations hi (apart_of_head hparen (by decide)).flush
    have hflush : Flush d.rest := (apart_of_head hd (by decide)).flush
    have hitems := items_of_declarations hs hi hm h1.position (h1.valid hv) (by omega) h2 hparen
    have hcomma : (token .comma).Refuses c2 := refuses_token_of_head (by rw [hparen]; decide)
    have hempty : vs = [] → Yields s.retry (declaration s) c1 := by
      rintro rfl
      cases hi
      obtain rfl := h2.unique (.refl c1)
      have hdollar : (token .dollar).Refuses c2 := refuses_token_of_head (by rw [hparen]; decide)
      exact (hdollar.bind _).placed.yields hs
    have hread1 := token_of_mark rfl hl h1 hflush1
    have hread2 := sepBy_of_items (moves_declaration s) hitems (h1.valid hv) hempty (hcomma.yields hs)
    have hread3 := token_of_mark rfl hright h3 hflush
    refine ⟨some vs, maybe_eq_ok.mpr (Or.inl ⟨vs, rfl, ?_⟩), rfl⟩
    exact bind_eq_ok.mpr ⟨(), c1, hread1, bind_eq_ok.mpr ⟨vs, c2, hread2,
      bind_eq_ok.mpr ⟨(), d, hread3, rfl⟩⟩⟩

/-! ### Queries -/

theorem blanks_of_keyword {t : Token} {keyword : List Char} (hk : Punctuation t keyword)
    (hne : keyword ≠ t.text.toList) : ∃ w, Blanks w ∧ w ≠ [] ∧ keyword = t.text.toList ++ w := by
  obtain ⟨w, hw, rfl⟩ := hk
  refine ⟨w, hw, ?_, rfl⟩
  rintro rfl
  exact hne (List.append_nil _)

theorem query_starts {place : Position} {text : List Char} {op : Operation} (h : Query place text op)
    (more : List Char) : ∃ f : QueryForm, f.Starts (text ++ more) := by
  cases h with
  | shorthand hl _ _ =>
    refine ⟨.shorthand, ?_⟩
    simp only [List.append_assoc]
    exact head?_punctuation hl _
  | @declared _ nameText parameters brace _ _ hk hne _ _ _ =>
    obtain ⟨w, hw, hblank, rfl⟩ := blanks_of_keyword hk hne
    refine ⟨.declared, w ++ (nameText ++ (parameters ++ (brace ++ more))), ?_, nameEnds_blank hw hblank _⟩
    simp only [List.append_assoc]

theorem query_of_text (hs : s.Thorough) {text : List Char} {op : Operation} {limit : Nat}
    (h : QueryWithin limit c.position text op) (hv : c.Valid) (hdepth : c.depth + limit ≤ c.depthLimit)
    (hr : c.Reads text d) (hd : Flush d.rest) : query s c = .ok (op, d) := by
  cases h with
  | shorthand hl hname hright =>
    obtain ⟨c2, h12, h3⟩ := hr.split
    obtain ⟨c1, h1, h2⟩ := h12.split
    have hstarts : QueryForm.shorthand.Starts c.rest := by
      rw [h1.rest]
      exact head?_punctuation hl _
    have hflush1 : Flush c1.rest := h2.rest ▸ Lexeme.flush_named hname c2.rest
    have hapart2 : Apart c2.rest := h3.rest ▸ apart_punctuation rfl hright d.rest
    have hread1 := token_of_mark rfl hl h1 hflush1
    have hread2 := Lexeme.name_of_reads hname h2 hapart2
    have hread3 := token_of_mark rfl hright h3 hd
    refine query_of_form hs hstarts ?_ final_ok
    exact bind_eq_ok.mpr ⟨c.position, c, rfl, bind_eq_ok.mpr ⟨(), c1, hread1,
      bind_eq_ok.mpr ⟨_, c2, lexeme_eq_ok.mpr hread2, bind_eq_ok.mpr ⟨(), d, hread3, rfl⟩⟩⟩⟩
  | declared hk hne hname hparameters hn hle hbrace =>
    obtain ⟨c3, h123, h4⟩ := hr.split
    obtain ⟨c2, h12, h3⟩ := h123.split
    obtain ⟨c1, h1, h2⟩ := h12.split
    obtain ⟨w, hw, hblank, rfl⟩ := blanks_of_keyword hk hne
    have hends := nameEnds_blank hw hblank c1.rest
    have hstarts : QueryForm.declared.Starts c.rest := ⟨_, by rw [h1.rest, List.append_assoc], hends⟩
    have hbrace3 : c3.rest.head? = some '{' := h4.rest ▸ head?_punctuation hbrace d.rest
    have hflush1 : Flush c1.rest := h2.rest ▸ Lexeme.flush_named hname c2.rest
    have hapart2 : Apart c2.rest := h3.rest ▸ apart_parameters hparameters hbrace3
    have hdepth2 := h12.depth
    have hlimit2 := h12.depthLimit
    rw [← h12.position] at hparameters
    have hread1 := Lexeme.keyword_of_reads hw h1 hflush1 hends
    have hread2 := Lexeme.name_of_reads hname h2 hapart2
    obtain ⟨o, hread3, rfl⟩ := maybe_of_parameters hs hparameters hn (h12.valid hv) (by omega) h3 hbrace3
    have hread4 := token_of_mark rfl hbrace h4 hd
    refine query_of_form hs hstarts ?_ final_ok
    exact bind_eq_ok.mpr ⟨c.position, c, rfl, bind_eq_ok.mpr ⟨(), c1, token_eq_ok.mpr hread1,
      bind_eq_ok.mpr ⟨_, c2, lexeme_eq_ok.mpr hread2, bind_eq_ok.mpr ⟨o, c3, hread3,
        bind_eq_ok.mpr ⟨(), d, hread4, rfl⟩⟩⟩⟩⟩

/-! ### Definitions -/

theorem flush_definitions {place : Position} {text rest : List Char} {ds : List Definition}
    (h : Definitions place text ds rest) (hr : Flush rest) : Flush text := by
  cases h with
  | none => exact hr
  | @query _ _ more _ _ _ hquery _ =>
    have hstarts : DefinitionForm.query.Starts _ := query_starts hquery more
    exact hstarts.flush
  | mutation _ hends _ =>
    rw [List.append_assoc]
    have hstarts : DefinitionForm.mutation.Starts _ := ⟨_, rfl, hends⟩
    exact hstarts.flush

/-- Where brackets have room, the rule for definitions runs over definitions up to what follows them. -/
theorem run_of_definitions (hs : s.Thorough) {place : Position} {text rest : List Char} {ds : List Definition}
    (h : Definitions place text ds rest) (hpos : c.position = place) (htext : c.rest = text) (hrest : Flush rest)
    (hv : c.Valid) (hroom : c.Roomy) : ∃ d, Run (definition s) c ds d ∧ d.rest = rest := by
  induction h generalizing c with
  | none => exact ⟨c, .nil c, htext⟩
  | @query _ text more _ op _ hquery hmore ih =>
    subst hpos
    have hr := Cursor.Reads.of_rest htext
    have hnext := Cursor.rest_past htext
    have hread := query_of_text hs hquery.within hv (hroom.le hr) hr (hnext ▸ flush_definitions hmore hrest)
    have hstarts : DefinitionForm.query.Starts c.rest := htext ▸ query_starts hquery more
    have hdefinition : definition s c = .ok (.query op, _) :=
      definition_of_form hs hstarts (bind_eq_ok.mpr ⟨op, _, hread, rfl⟩) final_ok
    obtain ⟨d, hrun, hd⟩ := ih hr.position hnext hrest (hr.valid hv) (hr.roomy hroom)
    exact ⟨d, .cons hdefinition (hr.left_lt hv (query_ne_nil hquery)) hrun, hd⟩
  | @mutation _ w more _ _ hw hends hmore ih =>
    subst hpos
    have hr := Cursor.Reads.of_rest htext
    have hnext := Cursor.rest_past htext
    have hread := Lexeme.keyword_of_reads hw hr (hnext ▸ flush_definitions hmore hrest) (hnext ▸ hends)
    have hstarts : DefinitionForm.mutation.Starts c.rest := ⟨w ++ more, by rw [htext, List.append_assoc], hends⟩
    have hdefinition : definition s c = .ok (.mutation c.position, _) :=
      definition_of_form hs hstarts
        (bind_eq_ok.mpr ⟨c.position, c, rfl, bind_eq_ok.mpr ⟨(), _, token_eq_ok.mpr hread, rfl⟩⟩) final_ok
    obtain ⟨d, hrun, hd⟩ := ih hr.position hnext hrest (hr.valid hv) (hr.roomy hroom)
    have hne := List.append_ne_nil_of_left_ne_nil Token.mutation.text_ne_nil w
    exact ⟨d, .cons hdefinition (hr.left_lt hv hne) hrun, hd⟩

end RequestDoc.Rule

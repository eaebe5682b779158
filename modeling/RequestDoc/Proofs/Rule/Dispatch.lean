import RequestDoc.Proofs.Rule.Ahead

/-!
Forms are told by their first character. A strategy that tries every form and goes on after a mismatch at
the start of one comes to what the form comes to that the next character starts, in whatever order it tries
them: all other forms refuse right at their start.
-/

namespace RequestDoc

variable {α β : Type} {s : Strategy} {c d : Cursor}

/-- The strategy tries all forms, goes on after a mismatch at the start of a form, and stops at limits. -/
structure Strategy.Thorough (s : Strategy) : Prop where
  goesOn : ∀ {err : ParseError} {start : Nat}, err.failsAt start = true → s.retry err start = true
  stops : ∀ {limit start : Nat} {position : Position}, s.retry (.tooDeep limit position) start = false
  literalForms : ∀ f, f ∈ s.literalForms
  typeForms : ∀ f, f ∈ s.typeForms
  queryForms : ∀ f, f ∈ s.queryForms
  definitionForms : ∀ f, f ∈ s.definitionForms

theorem Strategy.thorough_standard : Strategy.standard.Thorough where
  goesOn h := h
  stops := rfl
  literalForms f := by
    cases f with
    | boolean b => cases b <;> decide
    | _ => decide
  typeForms f := by cases f <;> decide
  queryForms f := by cases f <;> decide
  definitionForms f := by cases f <;> decide

/-- The strategy goes on only after a mismatch at the start of a form. -/
def Strategy.Committed (s : Strategy) : Prop :=
  ∀ err start, s.retry err start = err.failsAt start

theorem Strategy.committed_standard : Strategy.standard.Committed :=
  fun _ _ => rfl

namespace Rule

/-! ### Refusals -/

/-- The rule expects something else right at the cursor. -/
def Refuses (rule : Rule α) (c : Cursor) : Prop :=
  ∃ expected, rule c = .error (.mismatch c.offset c.position expected)

theorem Refuses.bind {rule : Rule α} (h : rule.Refuses c) (next : α → Rule β) : (rule >>= next).Refuses c := by
  obtain ⟨expected, hr⟩ := h
  exact ⟨expected, bind_of_error hr⟩

/-- Taking down the place makes no difference. -/
theorem Refuses.placed {next : Position → Rule α} (h : (next c.position).Refuses c) : (position >>= next).Refuses c :=
  h

theorem Refuses.yields {rule : Rule α} (h : rule.Refuses c) (hs : s.Thorough) : Yields s.retry rule c := by
  obtain ⟨expected, hr⟩ := h
  exact ⟨_, hr, hs.goesOn (beq_self_eq_true c.offset)⟩

theorem Refuses.not_ok {rule : Rule α} (h : rule.Refuses c) (r : α × Cursor) : rule c ≠ .ok r := by
  obtain ⟨expected, hr⟩ := h
  rw [hr]
  exact fun h => nomatch h

theorem refuses_lexeme {read : Lexeme α} {label : String} (h : read c = .error (c.mismatch label)) :
    (lexeme read).Refuses c :=
  ⟨.one label, lexeme_eq_error.mpr ⟨_, h, rfl⟩⟩

theorem refuses_token_of_head {t : Token} (h : c.rest.head? ≠ t.text.toList.head?) : (token t).Refuses c :=
  refuses_lexeme (Lexeme.token_refuses h)

theorem refuses_keyword {t : Token} (hk : t.isKeyword = true) (h : ¬Grammar.KeywordStarts t c.rest) :
    (token t).Refuses c :=
  refuses_lexeme (Lexeme.keyword_refuses hk h)

theorem refuses_token {t : Token} {first : Char} (ht : t.text.toList.head? = some first)
    (h : ∀ x ∈ c.rest.head?, x ≠ first) : (token t).Refuses c := by
  refine refuses_lexeme (Lexeme.token_refuses fun heq => ?_)
  exact h first (heq.trans ht) rfl

theorem refuses_choice {retry : Retry} {rules : List (Rule α)} (h : ∀ rule ∈ rules, rule.Refuses c) :
    (choice retry rules).Refuses c := by
  have hrules : ∀ rule ∈ rules, ∃ err, rule c = .error err ∧ ∃ expected, err = .mismatch c.offset c.position expected := by
    intro rule hm
    obtain ⟨expected, hr⟩ := h rule hm
    exact ⟨_, hr, expected, rfl⟩
  obtain ⟨err, herr, expected, rfl⟩ := choice_of_errors hrules (fun {err other} he ho => by
    obtain ⟨expected, rfl⟩ := he
    obtain ⟨expected', rfl⟩ := ho
    exact ⟨expected.merge expected', if_pos rfl⟩) ⟨_, rfl⟩
  exact ⟨expected, herr⟩

/-- A choice of forms comes to what one of them comes to if the other forms refuse. -/
theorem choice_of_form (hs : s.Thorough) {φ : Type} {forms : List φ} {rule : φ → Rule α} {f : φ}
    (hf : f ∈ forms) {outcome : Except ParseError (α × Cursor)} (h : rule f c = outcome)
    (hfin : Final s.retry c outcome) (hothers : ∀ g, g ≠ f → (rule g).Refuses c) :
    choice s.retry (forms.map rule) c = outcome := by
  refine choice_of_final hfin ⟨_, List.mem_map_of_mem hf, h⟩ fun other hm => ?_
  obtain ⟨g, -, rfl⟩ := List.mem_map.mp hm
  by_cases hg : g = f
  · exact Or.inl (hg ▸ h)
  · exact Or.inr ((hothers g hg).yields hs)

end Rule

/-! ### Literals -/

/-- The character starts literals of the form. -/
def LiteralForm.StartsWith : LiteralForm → Char → Prop
  | number, x => x = '-' ∨ x.isDigit = true
  | object, x => x = '{'
  | list, x => x = '['
  | boolean true, x => x = 't'
  | boolean false, x => x = 'f'
  | null, x => x = 'n'

theorem LiteralForm.isBlank_of_startsWith {f : LiteralForm} {x : Char} (h : f.StartsWith x) :
    Character.isBlank x = false := by
  cases f with
  | number =>
    rcases h with rfl | h
    · decide
    · exact Character.isBlank_of_continuesName (Character.continuesName_of_isDigit h)
  | boolean b =>
    cases b with
    | true =>
      obtain rfl := h
      decide
    | false =>
      obtain rfl := h
      decide
  | _ =>
    obtain rfl := h
    decide

theorem LiteralForm.not_startsWith {x : Char} (hx : x ∉ ['-', '{', '[', 't', 'f', 'n']) (hd : x.isDigit = false)
    (f : LiteralForm) : ¬f.StartsWith x := by
  simp only [List.mem_cons, List.not_mem_nil, or_false, not_or] at hx
  obtain ⟨hminus, hbrace, hbracket, ht, hf, hn⟩ := hx
  rcases f with _ | _ | _ | (_ | _) | _
  · rintro (h | h)
    · exact hminus h
    · rw [hd] at h
      cases h
  · exact hbrace
  · exact hbracket
  · exact hf
  · exact ht
  · exact hn

/-- No character starts literals of two forms. -/
theorem LiteralForm.eq_of_startsWith {f g : LiteralForm} {x : Char} (hf : f.StartsWith x) (hg : g.StartsWith x) :
    f = g := by
  rcases f with _ | _ | _ | (_ | _) | _ <;> rcases g with _ | _ | _ | (_ | _) | _ <;>
    simp only [StartsWith] at hf hg <;> first | rfl | (subst hg; exact absurd hf (by decide)) |
      (subst hf; exact absurd hg (by decide))

namespace Rule

theorem refuses_literalForm {f : LiteralForm} (h : ∀ x ∈ c.rest.head?, ¬f.StartsWith x) (value : Rule Value) :
    (literalForm s value f).Refuses c := by
  cases f with
  | number =>
    refine (refuses_lexeme (Lexeme.number_refuses fun x hx => ?_)).bind _
    have hx := h x hx
    simp only [LiteralForm.StartsWith, not_or, Bool.not_eq_true] at hx
    exact hx
  | object => exact (refuses_token rfl h).bind _
  | list => exact (refuses_token rfl h).bind _
  | boolean b => cases b <;> exact (refuses_token rfl h).bind _
  | null => exact (refuses_token rfl h).bind _

theorem refuses_literalWithin (h : ∀ x ∈ c.rest.head?, ∀ f, ¬LiteralForm.StartsWith f x)
    (levels : Nat) : (literalWithin s (levels + 1)).Refuses c := by
  refine refuses_choice fun rule hm => ?_
  obtain ⟨f, -, rfl⟩ := List.mem_map.mp hm
  exact refuses_literalForm (fun x hx => h x hx f) _

/-- A literal is read as the form that the next character starts. -/
theorem literalWithin_of_form (hs : s.Thorough) {f : LiteralForm} {x : Char} (hx : c.rest.head? = some x)
    (hf : f.StartsWith x) {levels : Nat} {outcome : Except ParseError (Value × Cursor)}
    (h : literalForm s (literalWithin s levels) f c = outcome) (hfin : Final s.retry c outcome) :
    literalWithin s (levels + 1) c = outcome := by
  refine choice_of_form hs (hs.literalForms f) h hfin fun g hg => refuses_literalForm (fun y hy hyg => hg ?_) _
  obtain rfl : x = y := Option.some.inj (hx.symm.trans hy)
  exact LiteralForm.eq_of_startsWith hyg hf

theorem literalWithin_eq_ok {levels : Nat} {r : Value × Cursor} (h : literalWithin s levels c = .ok r) :
    ∃ within f x, levels = within + 1 ∧ literalForm s (literalWithin s within) f c = .ok r ∧
      c.rest.head? = some x ∧ f.StartsWith x := by
  cases levels with
  | zero => cases h
  | succ within =>
    obtain ⟨rule, hm, hr⟩ := choice_eq_ok h
    obtain ⟨f, -, rfl⟩ := List.mem_map.mp hm
    by_cases hx : ∀ x ∈ c.rest.head?, ¬f.StartsWith x
    · exact absurd hr ((refuses_literalForm hx _).not_ok r)
    · simp only [Classical.not_forall, Classical.not_not] at hx
      obtain ⟨x, hx, hf⟩ := hx
      exact ⟨within, f, x, rfl, hr, hx, hf⟩

end Rule

/-! ### Type references -/

/-- The character starts references of the form. -/
def TypeForm.StartsWith : TypeForm → Char → Prop
  | named, x => Character.startsName x = true
  | list, x => x = '['

theorem TypeForm.isBlank_of_startsWith {f : TypeForm} {x : Char} (h : f.StartsWith x) :
    Character.isBlank x = false := by
  cases f with
  | named => exact Character.isBlank_of_continuesName (Character.continuesName_of_startsName h)
  | list =>
    obtain rfl := h
    decide

theorem TypeForm.eq_of_startsWith {f g : TypeForm} {x : Char} (hf : f.StartsWith x) (hg : g.StartsWith x) :
    f = g := by
  cases f <;> cases g <;> simp only [StartsWith] at hf hg
  · rfl
  · subst hg
    exact absurd hf (by decide)
  · subst hf
    exact absurd hg (by decide)
  · rfl

namespace Rule

/-- A form of references refuses where no reference of the form starts. -/
theorem refuses_typeForm {f : TypeForm} (h : ∀ x ∈ c.rest.head?, ¬f.StartsWith x) (item : Rule TypeRef) :
    (typeForm item f).Refuses c := by
  cases f with
  | named =>
    refine (refuses_lexeme (Lexeme.name_refuses fun x hx => ?_)).bind _
    have hx := h x hx
    simp only [TypeForm.StartsWith, Bool.not_eq_true] at hx
    exact hx
  | list => exact (refuses_token rfl h).bind _

theorem typeRefWithin_of_form (hs : s.Thorough) {f : TypeForm} {x : Char} (hx : c.rest.head? = some x)
    (hf : f.StartsWith x) {levels : Nat} {outcome : Except ParseError (TypeRef × Cursor)}
    (h : typeForm (typeRefWithin s levels) f c = outcome) (hfin : Final s.retry c outcome) :
    typeRefWithin s (levels + 1) c = outcome := by
  refine choice_of_form hs (hs.typeForms f) h hfin fun g hg => refuses_typeForm (fun y hy hyg => hg ?_) _
  obtain rfl : x = y := Option.some.inj (hx.symm.trans hy)
  exact TypeForm.eq_of_startsWith hyg hf

end Rule

/-! ### Definitions -/

open Grammar

theorem head?_of_keywordStarts {t : Token} {text : List Char} (h : KeywordStarts t text) :
    text.head? = t.text.toList.head? := by
  obtain ⟨rest, rfl, -⟩ := h
  rw [List.head?_append, List.head?_eq_some_head t.text_ne_nil, Option.some_or]

theorem query_ne_nil {place : Position} {text : List Char} {op : Operation} (h : Query place text op) : text ≠ [] := by
  cases h with
  | shorthand hl _ _ =>
    obtain ⟨w, -, rfl⟩ := hl
    exact fun h => nomatch h
  | declared hk _ _ _ _ =>
    obtain ⟨w, -, rfl⟩ := hk
    exact fun h => nomatch h

/-- A query of the form starts the text. -/
def QueryForm.Starts : QueryForm → List Char → Prop
  | shorthand, text => text.head? = some '{'
  | declared, text => KeywordStarts .query text

/-- A definition of the form starts the text. -/
def DefinitionForm.Starts : DefinitionForm → List Char → Prop
  | query, text => ∃ f : QueryForm, f.Starts text
  | mutation, text => KeywordStarts .mutation text

theorem QueryForm.head?_of_starts {f : QueryForm} {text : List Char} (h : f.Starts text) :
    text.head? = some '{' ∨ text.head? = some 'q' := by
  cases f with
  | shorthand => exact Or.inl h
  | declared => exact Or.inr (head?_of_keywordStarts h)

theorem QueryForm.eq_of_starts {f g : QueryForm} {text : List Char} (hf : f.Starts text) (hg : g.Starts text) :
    f = g := by
  cases f <;> cases g
  · rfl
  · exact nomatch Option.some.inj (hf.symm.trans (head?_of_keywordStarts hg))
  · exact nomatch Option.some.inj (hg.symm.trans (head?_of_keywordStarts hf))
  · rfl

theorem DefinitionForm.head?_of_starts {f : DefinitionForm} {text : List Char} (h : f.Starts text) :
    text.head? = some '{' ∨ text.head? = some 'q' ∨ text.head? = some 'm' := by
  cases f with
  | query =>
    obtain ⟨g, hg⟩ := h
    rcases g.head?_of_starts hg with hhead | hhead
    · exact Or.inl hhead
    · exact Or.inr (Or.inl hhead)
  | mutation => exact Or.inr (Or.inr (head?_of_keywordStarts h))

theorem DefinitionForm.not_starts_both {text : List Char} (hq : query.Starts text) : ¬mutation.Starts text := by
  intro hm
  have hmutation := head?_of_keywordStarts hm
  obtain ⟨g, hg⟩ := hq
  rcases g.head?_of_starts hg with hhead | hhead
  · exact nomatch Option.some.inj (hhead.symm.trans hmutation)
  · exact nomatch Option.some.inj (hhead.symm.trans hmutation)

theorem DefinitionForm.eq_of_starts {f g : DefinitionForm} {text : List Char} (hf : f.Starts text)
    (hg : g.Starts text) : f = g := by
  cases f <;> cases g
  · rfl
  · exact absurd hg (not_starts_both hf)
  · exact absurd hf (not_starts_both hg)
  · rfl

theorem definitionStarts_iff {text : List Char} : DefinitionStarts text ↔ ∃ f : DefinitionForm, f.Starts text := by
  constructor
  · rintro (hbrace | hquery | hmutation)
    · exact ⟨.query, .shorthand, hbrace⟩
    · exact ⟨.query, .declared, hquery⟩
    · exact ⟨.mutation, hmutation⟩
  · rintro ⟨_ | _, h⟩
    · obtain ⟨_ | _, hf⟩ := h
      · exact Or.inl hf
      · exact Or.inr (Or.inl hf)
    · exact Or.inr (Or.inr h)

theorem not_definitionStarts_nil : ¬DefinitionStarts [] := by
  rintro (hbrace | ⟨rest, hquery, -⟩ | ⟨rest, hmutation, -⟩)
  · cases hbrace
  · exact Token.query.text_ne_nil (List.append_eq_nil_iff.mp hquery.symm).1
  · exact Token.mutation.text_ne_nil (List.append_eq_nil_iff.mp hmutation.symm).1

/-- No definition starts with a blank. -/
theorem DefinitionForm.Starts.flush {f : DefinitionForm} {text : List Char} (h : f.Starts text) : Flush text := by
  intro x hx
  rcases f.head?_of_starts h with hhead | hhead | hhead
  all_goals
    obtain rfl := Option.some.inj (hhead.symm.trans hx)
    decide

namespace Rule

theorem refuses_queryForm {f : QueryForm} (h : ¬f.Starts c.rest) : (queryForm s f).Refuses c := by
  cases f with
  | shorthand => exact ((refuses_token_of_head h : (token .openBrace).Refuses c).bind _).placed
  | declared => exact ((refuses_keyword rfl h).bind _).placed

theorem refuses_query (h : ¬∃ f : QueryForm, f.Starts c.rest) : (query s).Refuses c := by
  refine refuses_choice fun rule hm => ?_
  obtain ⟨f, -, rfl⟩ := List.mem_map.mp hm
  exact refuses_queryForm fun hf => h ⟨f, hf⟩

theorem refuses_definitionForm {f : DefinitionForm} (h : ¬f.Starts c.rest) :
    (definitionForm s f).Refuses c := by
  cases f with
  | query => exact (refuses_query h).bind _
  | mutation => exact ((refuses_keyword rfl h).bind _).placed

theorem refuses_definition (h : ¬DefinitionStarts c.rest) : (definition s).Refuses c := by
  refine refuses_choice fun rule hm => ?_
  obtain ⟨f, -, rfl⟩ := List.mem_map.mp hm
  exact refuses_definitionForm fun hf => h (definitionStarts_iff.mpr ⟨f, hf⟩)

theorem query_of_form (hs : s.Thorough) {f : QueryForm} (hf : f.Starts c.rest)
    {outcome : Except ParseError (Operation × Cursor)} (h : queryForm s f c = outcome)
    (hfin : Final s.retry c outcome) : query s c = outcome :=
  choice_of_form hs (hs.queryForms f) h hfin fun _ hg => refuses_queryForm fun hstart =>
    hg (QueryForm.eq_of_starts hstart hf)

theorem definition_of_form (hs : s.Thorough) {f : DefinitionForm} (hf : f.Starts c.rest)
    {outcome : Except ParseError (Definition × Cursor)} (h : definitionForm s f c = outcome)
    (hfin : Final s.retry c outcome) : definition s c = outcome :=
  choice_of_form hs (hs.definitionForms f) h hfin fun _ hg => refuses_definitionForm fun hstart =>
    hg (DefinitionForm.eq_of_starts hstart hf)

end Rule

end RequestDoc

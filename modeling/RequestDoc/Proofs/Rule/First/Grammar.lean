import RequestDoc.Proofs.Rule.Rounds

/-!
The first lexemes of the grammar. Every form of a construct starts with a lexeme of its own, a query among the
definitions with the lexemes of its two forms, and every rule of the grammar is told by the first lexemes of its forms.
-/

namespace RequestDoc

variable {α : Type} {retry : Retry} {s : Strategy}

/-! ### Forms -/

def LiteralForm.firsts : LiteralForm → List FirstLexeme
  | number => [.number]
  | object => [.token .openBrace]
  | list => [.token .openBracket]
  | boolean b => [.token (if b then .trueWord else .falseWord)]
  | null => [.token .nullWord]

def TypeForm.firsts : TypeForm → List FirstLexeme
  | named => [.name]
  | list => [.token .openBracket]

def QueryForm.firsts : QueryForm → List FirstLexeme
  | shorthand => [.token .openBrace]
  | declared => [.token .query]

/-- What a definition of the form can start with by a strategy. -/
def DefinitionForm.firsts (s : Strategy) : DefinitionForm → List FirstLexeme
  | query => s.queryForms.flatMap QueryForm.firsts
  | mutation => [.token .mutation]

/-! ### Rules -/

/-- The rules of the grammar that start with a lexeme. -/
inductive Rule.Kind : Type → Type where
  | literal : Kind Value
  | member : Kind (String × Value)
  | typeRef : Kind TypeRef
  | declarations : Kind (List Variable)
  | declaration : Kind Variable
  | defaultValue : Kind Value
  | query : Kind Operation
  | definition : Kind Definition

namespace Rule

/-- The rule, by the standard strategy. -/
def Kind.rule : Kind α → Rule α
  | literal => Rule.literal .standard
  | member => Rule.member (Rule.literal .standard)
  | typeRef => Rule.typeRef .standard
  | declarations => Rule.declarations .standard
  | declaration => Rule.declaration .standard
  | defaultValue => Rule.defaultValue .standard
  | query => Rule.query .standard
  | definition => Rule.definition .standard

/-- What the rule can start with. -/
def Kind.firsts : Kind α → List FirstLexeme
  | literal =>
    [.number, .token .openBrace, .token .openBracket, .token .trueWord, .token .falseWord, .token .nullWord]
  | member => [.quote]
  | typeRef => [.name, .token .openBracket]
  | declarations => [.token .openParen]
  | declaration => [.token .dollar]
  | defaultValue => [.token .equals]
  | query => [.token .openBrace, .token .query]
  | definition => [.token .openBrace, .token .query, .token .mutation]

theorem told_literalForm (value : Script Value) (f : LiteralForm) :
    Told f.firsts ((Script.literalForm value f).run retry) := by
  cases f with
  | number => exact Told.bind (x := .lexeme .number) told_number _
  | object => exact Told.bind (x := .token .openBrace) (told_token _) _
  | list => exact Told.bind (x := .token .openBracket) (told_token _) _
  | boolean b => exact Told.bind (x := .token _) (told_token _) _
  | null => exact Told.bind (x := .token .nullWord) (told_token _) _

theorem told_literal (hs : s.Committed) : Told (s.literalForms.flatMap LiteralForm.firsts) (literal s) := by
  rw [← Script.run_literal]
  exact told_levels fun levels => Told.choice hs (told_literalForm _)

theorem told_member (s : Strategy) : Told [.quote] (member (literal s)) := by
  have h : Told [.quote] ((Script.member (.literal s)).run s.retry) := Told.bind (x := .lexeme .quoted) told_quoted _
  rw [← Script.run_literal]
  exact h

theorem told_typeForm (item : Script TypeRef) (f : TypeForm) : Told f.firsts ((Script.typeForm item f).run retry) := by
  cases f with
  | named => exact Told.bind (x := .lexeme .name) told_name _
  | list => exact Told.bind (x := .token .openBracket) (told_token _) _

theorem told_typeRef (hs : s.Committed) : Told (s.typeForms.flatMap TypeForm.firsts) (typeRef s) := by
  rw [← Script.run_typeRef]
  exact told_levels fun levels => Told.choice hs (told_typeForm _)

theorem told_defaultValue (s : Strategy) : Told [.token .equals] (defaultValue s) := by
  rw [← Script.run_defaultValue]
  exact Told.bind (x := .token .equals) (told_token _) _

theorem told_declaration (s : Strategy) : Told [.token .dollar] (declaration s) := by
  rw [← Script.run_declaration]
  exact told_placed fun _ => Told.bind (x := .token .dollar) (told_token _) _

theorem told_declarations (s : Strategy) : Told [.token .openParen] (declarations s) := by
  rw [← Script.run_declarations]
  exact Told.bind (x := .token .openParen) (told_token _) _

theorem told_queryForm (f : QueryForm) : Told f.firsts ((Script.queryForm s f).run retry) := by
  cases f with
  | shorthand => exact told_placed fun _ => Told.bind (x := .token .openBrace) (told_token _) _
  | declared => exact told_placed fun _ => Told.bind (x := .token .query) (told_token _) _

theorem told_queryForms (hs : s.Committed) :
    Told (s.queryForms.flatMap QueryForm.firsts) ((Script.choice s.queryForms (Script.queryForm s)).run s.retry) :=
  Told.choice hs told_queryForm

theorem told_query (hs : s.Committed) : Told (s.queryForms.flatMap QueryForm.firsts) (query s) := by
  have h := told_queryForms hs
  rw [Script.run_choice] at h
  simp only [Script.run_queryForm] at h
  exact h

theorem told_definitionForm (hs : s.Committed) (f : DefinitionForm) :
    Told (f.firsts s) ((Script.definitionForm s f).run s.retry) := by
  cases f with
  | query => exact (told_queryForms hs).bind _
  | mutation => exact told_placed fun _ => Told.bind (x := .token .mutation) (told_token _) _

theorem told_definition (hs : s.Committed) :
    Told (s.definitionForms.flatMap (DefinitionForm.firsts s)) (definition s) := by
  rw [← Script.run_definition]
  exact Told.choice hs (told_definitionForm hs)

/-- Each rule of the grammar is told by its first lexemes. -/
theorem Kind.told (kind : Kind α) : Told kind.firsts kind.rule := by
  cases kind with
  | literal => exact told_literal Strategy.committed_standard
  | member => exact told_member _
  | typeRef => exact told_typeRef Strategy.committed_standard
  | declarations => exact told_declarations _
  | declaration => exact told_declaration _
  | defaultValue => exact told_defaultValue _
  | query => exact told_query Strategy.committed_standard
  | definition => exact told_definition Strategy.committed_standard

theorem Kind.moves (kind : Kind α) : kind.rule.Moves := by
  cases kind with
  | literal => exact moves_literal _
  | member => exact (moves_literal _).member
  | typeRef => exact moves_typeRef _
  | declarations => exact moves_declarations _
  | declaration => exact moves_declaration _
  | defaultValue => exact (moves_token _).bind fun _ => moves_literal _
  | query => exact moves_query _
  | definition => exact moves_definition _

/-! ### How much a definition takes -/

theorem spends_queryForm (f : QueryForm) : Spends 2 ((Script.queryForm s f).run retry) := by
  cases f with
  | shorthand =>
    have hname : Spends 1 (lexeme Lexeme.name) := told_name.spends moves_name
    refine spends_placed fun place => Spends.mono (m := Token.openBrace.text.toList.length + 1) ?_ (by decide)
    exact (spends_token .openBrace).bind fun _ => Spends.andThen (x := .lexeme .name) hname _
  | declared =>
    refine spends_placed fun place => Spends.mono (m := Token.query.text.toList.length) ?_ (by decide)
    exact Spends.andThen (x := .token .query) (spends_token .query) _

theorem spends_definition (s : Strategy) : Spends 2 (definition s) := by
  rw [← Script.run_definition]
  refine spends_choice fun rule hm => ?_
  obtain ⟨f, -, rfl⟩ := List.mem_map.mp hm
  cases f with
  | query =>
    refine Spends.andThen (x := .choice s.queryForms (Script.queryForm s)) (spends_choice fun rule hm => ?_) _
    obtain ⟨f, -, rfl⟩ := List.mem_map.mp hm
    exact spends_queryForm f
  | mutation =>
    refine spends_placed fun place => Spends.mono (m := Token.mutation.text.toList.length) ?_ (by decide)
    exact Spends.andThen (x := .token .mutation) (spends_token .mutation) _

end Rule

end RequestDoc

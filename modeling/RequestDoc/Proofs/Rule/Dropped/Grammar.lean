import RequestDoc.Proofs.Rule.Demand
import RequestDoc.Proofs.Rule.Dropped

/-!
What the rules of the grammar give up. Behind a type nothing but its mark may have been given up, behind a declaration
also an equals sign, and behind a closing bracket nothing at all. What closes a row of items is labelled by no item, so
the error that a row ends with has no label of what was given up in front of it.
-/

namespace RequestDoc.Script

variable {α β : Type} {s : Strategy} {retry : Retry} {x : Script α} {heads lasts : List String}

theorem guarded_token (t : Token) : (token t).Guarded retry :=
  guarded_lexeme (Rule.told_token t)

theorem guarded_name : (lexeme .name).Guarded retry :=
  guarded_lexeme Rule.told_name

/-- A script that starts with a token. -/
theorem tidy_token_bind {t : Token} {next : Unit → Script β} (h : ∀ u, (next u).Tidy retry heads lasts) :
    (token t >>= next).Tidy retry [t.label] lasts :=
  tidy_lexeme_bind (guarded_token t) h

/-- A script that starts with a name. -/
theorem tidy_name_bind {next : String → Script β} (h : ∀ name, (next name).Tidy retry heads lasts) :
    (lexeme .name >>= next).Tidy retry ["identifier"] lasts :=
  tidy_lexeme_bind guarded_name h

/-! ### Items with commas -/

theorem tidy_sepBy (hs : s.Committed) (hg : x.Guarded s.retry) (h : x.Tidy s.retry heads lasts) :
    (sepBy x (token .comma)).Tidy s.retry [] (heads ++ lasts ++ (lasts ++ [Token.comma.label])) := by
  refine (tidy_maybe hs hg h).bind (fun first => ?_) fun _ _ => List.not_mem_nil
  cases first with
  | none => exact (tidy_pure _).mono (List.Subset.refl _) (List.nil_subset _)
  | some first => exact (tidy_many hs ((guarded_token _).bind _) (tidy_token_bind fun _ => h)).map _

/-- Items with commas, and a token behind them that no item starts or ends with. -/
theorem tidy_row (hs : s.Committed) (hg : x.Guarded s.retry) (h : x.Tidy s.retry heads lasts) {closing : Token}
    (hclear : ∀ label ∈ heads ++ lasts ++ (lasts ++ [Token.comma.label]), label ∉ [closing.label]) (build : List α → β) :
    (do let items ← sepBy x (token .comma); token closing; return build items : Script β).Tidy s.retry [closing.label] [] :=
  (tidy_sepBy hs hg h).before (fun _ => (tidy_lexeme (.token closing)).map _) (fun _ => (guarded_token _).bind _) hclear

/-! ### Literals -/

theorem guarded_literalForm (value : Script Value) (f : LiteralForm) : (literalForm value f).Guarded retry := by
  cases f with
  | number => exact (guarded_lexeme Rule.told_number).bind _
  | object => exact (guarded_token _).bind _
  | list => exact (guarded_token _).bind _
  | boolean b => exact (guarded_token _).bind _
  | null => exact (guarded_token _).bind _

theorem guarded_member {value : Script Value} : (member value).Guarded retry :=
  (guarded_lexeme Rule.told_quoted).bind _

theorem tidy_member {value : Script Value} (h : value.Tidy retry heads []) : (member value).Tidy retry ["string"] [] :=
  tidy_lexeme_bind (guarded_lexeme Rule.told_quoted) fun _ => tidy_token_bind fun _ => h.map _

theorem tidy_literalForm (hs : s.Committed) {value : Script Value} (hg : value.Guarded s.retry)
    (h : value.Tidy s.retry Demand.value.expected.labels []) (f : LiteralForm) :
    (literalForm value f).Tidy s.retry [Rule.literalLabel f] [] := by
  cases f with
  | number => exact (tidy_lexeme .number).map _
  | object => exact tidy_token_bind fun _ => (tidy_row hs guarded_member (tidy_member h) (by decide) _).nested
  | list => exact tidy_token_bind fun _ => (tidy_row hs hg h (by decide) _).nested
  | boolean b => exact (tidy_lexeme (.token _)).map _
  | null => exact (tidy_lexeme (.token _)).map _

theorem literalLabel_subset (f : LiteralForm) : [Rule.literalLabel f] ⊆ Demand.value.expected.labels := by
  rcases f with _ | _ | _ | (_ | _) | _ <;> decide

theorem literalWithin_gives (n : Nat) : (literalWithin .standard n).Guarded Strategy.standard.retry ∧
    (literalWithin .standard n).Tidy Strategy.standard.retry Demand.value.expected.labels [] := by
  have hs := Strategy.committed_standard
  induction n with
  | zero => exact ⟨guarded_tooDeep, tidy_tooDeep.mono (List.nil_subset _) (List.nil_subset _)⟩
  | succ n ih =>
    obtain ⟨hg, h⟩ := ih
    refine ⟨guarded_choice hs (guarded_literalForm _), tidy_choice hs (List.cons_ne_nil _ _) (guarded_literalForm _) fun f => ?_⟩
    exact (tidy_literalForm hs hg h f).mono (literalLabel_subset f) (List.Subset.refl _)

theorem guarded_literal : (literal .standard).Guarded Strategy.standard.retry :=
  guarded_levels fun n => (literalWithin_gives n).1

theorem tidy_literal : (literal .standard).Tidy Strategy.standard.retry Demand.value.expected.labels [] :=
  tidy_levels fun n => (literalWithin_gives n).2

/-! ### Type references -/

/-- What is given up behind a type, if its mark is missing. -/
theorem tidy_mark (build : Bool → β) :
    (do let required ← tokenIf .bang; return build required : Script β).Tidy retry [] [Token.bang.label] :=
  (tidy_tokenIf .bang).map build

theorem guarded_typeForm (item : Script TypeRef) (f : TypeForm) : (typeForm item f).Guarded retry := by
  cases f with
  | named => exact guarded_name.bind _
  | list => exact (guarded_token _).bind _

theorem tidy_typeForm {item : Script TypeRef} (h : item.Tidy retry Demand.type.expected.labels [Token.bang.label])
    (f : TypeForm) : (typeForm item f).Tidy retry [Rule.typeLabel f] [Token.bang.label] := by
  cases f with
  | named => exact tidy_name_bind fun _ => tidy_mark _
  | list =>
    have hclose (t : TypeRef) : (do
        token .closeBracket
        let required ← tokenIf .bang
        return .list t required : Script TypeRef).Tidy retry [Token.closeBracket.label] [Token.bang.label] :=
      tidy_token_bind fun _ => tidy_mark _
    exact tidy_token_bind fun _ => (h.before hclose (fun _ => (guarded_token _).bind _) (by decide)).nested

theorem typeLabel_subset (f : TypeForm) : [Rule.typeLabel f] ⊆ Demand.type.expected.labels := by
  cases f <;> decide

theorem typeRefWithin_gives (n : Nat) : (typeRefWithin .standard n).Guarded Strategy.standard.retry ∧
    (typeRefWithin .standard n).Tidy Strategy.standard.retry Demand.type.expected.labels [Token.bang.label] := by
  have hs := Strategy.committed_standard
  induction n with
  | zero => exact ⟨guarded_tooDeep, tidy_tooDeep.mono (List.nil_subset _) (List.nil_subset _)⟩
  | succ n ih =>
    refine ⟨guarded_choice hs (guarded_typeForm _), tidy_choice hs (List.cons_ne_nil _ _) (guarded_typeForm _) fun f => ?_⟩
    exact (tidy_typeForm ih.2 f).mono (typeLabel_subset f) (List.Subset.refl _)

theorem guarded_typeRef : (typeRef .standard).Guarded Strategy.standard.retry :=
  guarded_levels fun n => (typeRefWithin_gives n).1

theorem tidy_typeRef : (typeRef .standard).Tidy Strategy.standard.retry Demand.type.expected.labels [Token.bang.label] :=
  tidy_levels fun n => (typeRefWithin_gives n).2

/-- Behind a type without a mark the mark is given up, and the end of the text is expected alone. -/
example : (typeRef .standard).Drops Strategy.standard.retry (.start "T?" 0) (.mismatch 1 ⟨1, 2⟩ (.one "'!'")) ∧
    (typeRef .standard).toEnd.run Strategy.standard.retry (.start "T?" 0) =
      .error (.mismatch 1 ⟨1, 2⟩ (.one "end of input")) := by
  refine ⟨⟨[], TypeForm.named, [.list], rfl, List.forall_mem_nil _,
    Or.inr ⟨"T", (Cursor.start "T?" 0).past ['T'], ?_, Or.inl ?_⟩⟩, ?_⟩
  all_goals with_unfolding_all rfl

/-! ### Definitions -/

theorem tidy_declaration : (declaration .standard).Tidy Strategy.standard.retry [Token.dollar.label]
    [Token.bang.label, Token.equals.label] := by
  have hdefault : (maybe (defaultValue .standard)).Tidy Strategy.standard.retry [] [Token.equals.label] :=
    tidy_maybe Strategy.committed_standard ((guarded_token _).bind _) (tidy_token_bind fun _ => tidy_literal)
  have htail (build : TypeRef → Option Value → Variable) : (do
      let type ← typeRef .standard
      let value ← maybe (defaultValue .standard)
      return build type value : Script Variable).Tidy Strategy.standard.retry _ [Token.bang.label, Token.equals.label] :=
    guarded_typeRef.tidy_bind tidy_typeRef (fun _ => hdefault.map _) fun _ _ => List.not_mem_nil
  exact tidy_placed fun _ => tidy_token_bind fun _ => tidy_name_bind fun _ => tidy_token_bind fun _ => htail _

theorem guarded_declaration : (declaration .standard).Guarded Strategy.standard.retry :=
  guarded_placed fun _ => (guarded_token _).bind _

theorem tidy_declarations : (declarations .standard).Tidy Strategy.standard.retry [Token.openParen.label] [] :=
  tidy_token_bind fun _ => tidy_row Strategy.committed_standard guarded_declaration tidy_declaration (by decide) id

/-- The first token of a query of the form. -/
def queryToken : QueryForm → Token
  | .shorthand => .openBrace
  | .declared => .query

theorem guarded_queryForm (f : QueryForm) : (queryForm s f).Guarded retry := by
  cases f with
  | shorthand => exact guarded_placed fun _ => (guarded_token _).bind _
  | declared => exact guarded_placed fun _ => (guarded_token _).bind _

theorem tidy_queryForm (f : QueryForm) :
    (queryForm .standard f).Tidy Strategy.standard.retry [(queryToken f).label] [] := by
  have hmark (t : Token) (op : Operation) : (do token t; return op : Script Operation).Tidy Strategy.standard.retry _ [] :=
    (tidy_lexeme (.token t)).map _
  cases f with
  | shorthand => exact tidy_placed fun _ => tidy_token_bind fun _ => tidy_name_bind fun _ => hmark .closeBrace _
  | declared =>
    have hdeclarations : (maybe (declarations .standard)).Tidy Strategy.standard.retry [] [Token.openParen.label] :=
      tidy_maybe Strategy.committed_standard ((guarded_token _).bind _) tidy_declarations
    have htail (build : Option (List Variable) → Operation) : (do
        let vs ← maybe (declarations .standard)
        token .openBrace
        return build vs : Script Operation).Tidy Strategy.standard.retry _ [] :=
      hdeclarations.before (fun _ => hmark .openBrace _) (fun _ => (guarded_token _).bind _) (by decide)
    exact tidy_placed fun _ => tidy_token_bind fun _ => tidy_name_bind fun _ => htail _

theorem query_gives : (choice Strategy.standard.queryForms (queryForm .standard)).Guarded Strategy.standard.retry ∧
    (choice Strategy.standard.queryForms (queryForm .standard)).Tidy Strategy.standard.retry
      [Token.openBrace.label, Token.query.label] [] := by
  have hs := Strategy.committed_standard
  refine ⟨guarded_choice hs guarded_queryForm, tidy_choice hs (List.cons_ne_nil _ _) guarded_queryForm fun f => ?_⟩
  exact (tidy_queryForm f).mono (by cases f <;> decide) (List.Subset.refl _)

theorem guarded_definitionForm (f : DefinitionForm) : (definitionForm .standard f).Guarded Strategy.standard.retry := by
  cases f with
  | query => exact query_gives.1.bind _
  | mutation => exact guarded_placed fun _ => (guarded_token _).bind _

theorem definition_gives : (definition .standard).Guarded Strategy.standard.retry ∧
    (definition .standard).Tidy Strategy.standard.retry
      [Token.openBrace.label, Token.query.label, Token.mutation.label] [] := by
  have hs := Strategy.committed_standard
  refine ⟨guarded_choice hs guarded_definitionForm, tidy_choice hs (List.cons_ne_nil _ _) guarded_definitionForm fun f => ?_⟩
  cases f with
  | query => exact (query_gives.2.map _).mono (by decide) (List.Subset.refl _)
  | mutation =>
    have hmutation : (definitionForm .standard .mutation).Tidy Strategy.standard.retry [Token.mutation.label] [] :=
      tidy_placed fun _ => (tidy_lexeme (.token .mutation)).map _
    exact hmutation.mono (by decide) (List.Subset.refl _)

/-! ### Whole texts -/

theorem tidy_document : (document .standard).Tidy Strategy.standard.retry []
    [Token.openBrace.label, Token.query.label, Token.mutation.label] :=
  (tidy_many Strategy.committed_standard definition_gives.1 definition_gives.2).map _

theorem tidy_toEnd (hg : x.Guarded retry) (h : x.Tidy retry heads lasts) (hclear : "end of input" ∉ lasts) :
    x.toEnd.Tidy retry heads lasts := by
  have hend (a : α) : (do let _ ← lexeme .endOfInput; return a : Script α).Tidy retry ["end of input"] [] :=
    (tidy_lexeme .endOfInput).map _
  have htidy := hg.tidy_bind h hend fun label hl heq => hclear (List.mem_singleton.mp heq ▸ hl)
  rwa [List.append_nil] at htidy

end RequestDoc.Script

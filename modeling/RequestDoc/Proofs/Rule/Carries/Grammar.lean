import RequestDoc.Proofs.Rule.Carries

/-!
The grammar in placed texts. Every rule of the grammar is carried to itself by a strategy that commits: literals
and type references stay what they are, and the places in declarations, operations and definitions are moved.
-/

namespace RequestDoc

namespace Rule

variable {α β : Type} {p : Placement} {s : Strategy} (hs : s.Committed)

theorem Carries.member {value value' : Rule Value} (h : value.Carries p id value') :
    (member value).Carries p id (member value') :=
  carries_quoted.bind fun _ => (carries_token _).bind fun _ => h.bind fun _ => carries_pure rfl

theorem Carries.typeForm {item item' : Rule TypeRef} (h : item.Carries p id item') (f : TypeForm) :
    (typeForm item f).Carries p id (typeForm item' f) := by
  cases f with
  | named => exact carries_name.bind fun _ => (carries_tokenIf _).bind fun _ => carries_pure rfl
  | list =>
    exact (carries_token _).bind fun _ => Carries.nested <| h.bind fun _ => (carries_token _).bind fun _ =>
      (carries_tokenIf _).bind fun _ => carries_pure rfl

theorem carries_tooDeep {rule rule' : Rule α} (h : ∀ c, rule c = .error (.tooDeep c.depthLimit c.position))
    (h' : p.more = 0 → ∀ c, rule' c = .error (.tooDeep c.depthLimit c.position)) : rule.Carries p id rule' where
  moves :=
    { reads := fun {c _ _} hok => nomatch (h c).symm.trans hok
      meets := fun {c _} herr => Except.error.inj ((h c).symm.trans herr) ▸ .tooDeep (.refl c) }
  ok {c _ _} _ hok _ := nomatch (h c).symm.trans hok
  error {c err} _ herr hset := by
    obtain rfl := Except.error.inj ((h c).symm.trans herr)
    have hmore := hset.limited rfl
    rw [h' hmore]
    show Except.error (ParseError.tooDeep (c.depthLimit + p.more) _) = _
    rw [hmore]
    rfl

/-- Rules that take as many levels as brackets may still be opened are carried if they are level by level. -/
theorem carries_levels {within : Nat → Rule α}
    (h : ∀ {levels levels' : Nat}, levels ≤ levels' → levels' ≤ levels + p.more →
      (within levels).Carries p id (within levels')) :
    Carries p id (fun c => within (c.depthLimit - c.depth + 1) c) (fun c => within (c.depthLimit - c.depth + 1) c) := by
  have hcarries : ∀ c : Cursor, (within (c.depthLimit - c.depth + 1)).Carries p id
      (within (c.depthLimit + p.more - c.depth + 1)) := fun c => h (by omega) (by omega)
  exact ⟨⟨fun {c _ _} hok => (hcarries c).moves.reads hok, fun {c _} herr => (hcarries c).moves.meets herr⟩,
    fun {c _ _} hc hok hd => (hcarries c).ok hc hok hd, fun {c _} hc herr hset => (hcarries c).error hc herr hset⟩

include hs

theorem Carries.bracketed {item item' : Rule α} (h : item.Carries p id item') (opening closing : Token) (build : List α → β) :
    (bracketed s.retry opening closing item build).Carries p id (bracketed s.retry opening closing item' build) := by
  refine (carries_token _).bind fun _ => Carries.nested <| (h.sepBy hs).bind fun items => (carries_token _).bind fun _ => ?_
  rw [List.map_id]
  exact carries_pure rfl

theorem Carries.literalForm {value value' : Rule Value} (h : value.Carries p id value') (f : LiteralForm) :
    (literalForm s value f).Carries p id (literalForm s value' f) := by
  cases f with
  | number => exact carries_number.bind fun _ => carries_pure rfl
  | object => exact h.member.bracketed hs .openBrace .closeBrace fun members => Value.object (.ofList members)
  | list => exact h.bracketed hs .openBracket .closeBracket Value.list
  | boolean b => exact (carries_token _).bind fun _ => carries_pure rfl
  | null => exact (carries_token _).bind fun _ => carries_pure rfl

/-- A greater text may need more levels, as many as more brackets may be open in it. -/
theorem carries_literalWithin {levels levels' : Nat} (hle : levels ≤ levels') (hmore : levels' ≤ levels + p.more) :
    (literalWithin s levels).Carries p id (literalWithin s levels') := by
  induction levels generalizing levels' with
  | zero => exact carries_tooDeep (fun _ => rfl) fun hzero _ => by rw [hzero, Nat.le_zero] at hmore; rw [hmore]; rfl
  | succ levels ih =>
    obtain ⟨within, rfl⟩ : ∃ within, levels' = within + 1 := ⟨levels' - 1, by omega⟩
    exact carries_choice hs (fun f => (ih (by omega) (by omega)).literalForm hs f) s.literalForms

theorem carries_literal : (literal s).Carries p id (literal s) :=
  carries_levels (carries_literalWithin hs)

theorem carries_typeRefWithin {levels levels' : Nat} (hle : levels ≤ levels') (hmore : levels' ≤ levels + p.more) :
    (typeRefWithin s levels).Carries p id (typeRefWithin s levels') := by
  induction levels generalizing levels' with
  | zero => exact carries_tooDeep (fun _ => rfl) fun hzero _ => by rw [hzero, Nat.le_zero] at hmore; rw [hmore]; rfl
  | succ levels ih =>
    obtain ⟨within, rfl⟩ : ∃ within, levels' = within + 1 := ⟨levels' - 1, by omega⟩
    exact carries_choice hs (fun f => (ih (by omega) (by omega)).typeForm f) s.typeForms

theorem carries_typeRef : (typeRef s).Carries p id (typeRef s) :=
  carries_levels (carries_typeRefWithin hs)

theorem carries_declaration : (declaration s).Carries p (Variable.shift · p.start) (declaration s) := by
  have hdefault : (defaultValue s).Carries p id (defaultValue s) := (carries_token _).bind fun _ => carries_literal hs
  refine carries_position.bind fun place => (carries_token _).bind fun _ => carries_name.bind fun name => ?_
  refine (carries_token _).bind fun _ => (carries_typeRef hs).bind fun type => (hdefault.maybe hs).bind fun value => ?_
  rw [Option.map_id]
  exact carries_pure rfl

theorem carries_declarations :
    (declarations s).Carries p (List.map (Variable.shift · p.start)) (declarations s) :=
  (carries_token _).bind fun _ => ((carries_declaration hs).sepBy hs).bind fun _ => (carries_token _).bind fun _ =>
    carries_pure rfl

theorem carries_queryForm (f : QueryForm) : (queryForm s f).Carries p (Operation.shift · p.start) (queryForm s f) := by
  cases f with
  | shorthand =>
    exact carries_position.bind fun _ => (carries_token _).bind fun _ => carries_name.bind fun _ =>
      (carries_token _).bind fun _ => carries_pure rfl
  | declared =>
    refine carries_position.bind fun place => (carries_token _).bind fun _ => carries_name.bind fun name => ?_
    refine ((carries_declarations hs).maybe hs).bind fun vs => (carries_token _).bind fun _ => carries_pure ?_
    cases vs <;> rfl

theorem carries_query : (query s).Carries p (Operation.shift · p.start) (query s) :=
  carries_choice hs (carries_queryForm hs) s.queryForms

theorem carries_definitionForm (f : DefinitionForm) :
    (definitionForm s f).Carries p (Definition.shift · p.start) (definitionForm s f) := by
  cases f with
  | query => exact (carries_query hs).bind fun _ => carries_pure rfl
  | mutation => exact carries_position.bind fun _ => (carries_token _).bind fun _ => carries_pure rfl

theorem carries_definition : (definition s).Carries p (Definition.shift · p.start) (definition s) :=
  carries_choice hs (carries_definitionForm hs) s.definitionForms

end Rule

end RequestDoc

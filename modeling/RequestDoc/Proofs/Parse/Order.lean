import RequestDoc.Proofs.Rule.Reorder

/-!
The order of forms. No two forms of a construct get past their start at the same cursor, since no two of them start alike.
So trying the forms of each construct in another order, at every level, gives the same documents, literals and
references, the same limits, and mismatches at the same place that expect the same.
-/

namespace RequestDoc

variable {α : Type} {retry : Retry} {s t : Strategy} {c : Cursor} {limits : Limits} {text : String}

/-! ### Forms that get past their start -/

/-- At most one of the forms gets past its start at the cursor. -/
def Rule.Exclusive {ι : Type} (form : ι → Rule α) (c : Cursor) : Prop :=
  ∀ f g, ¬(form f).Refuses c → ¬(form g).Refuses c → f = g

namespace Rule

theorem exclusive_of_starts {ι : Type} {form : ι → Rule α} (Starts : ι → Prop) (hunique : ∀ {f g}, Starts f → Starts g → f = g)
    (hrefuses : ∀ f, ¬Starts f → (form f).Refuses c) : Exclusive form c := fun f g hf hg =>
  hunique (Classical.byContradiction fun h => hf (hrefuses f h)) (Classical.byContradiction fun h => hg (hrefuses g h))

theorem exclusive_literalForm (s : Strategy) (value : Rule Value) (c : Cursor) : Exclusive (literalForm s value) c := by
  refine exclusive_of_starts (fun f => ∃ x ∈ c.rest.head?, f.StartsWith x) ?_
    fun f hf => refuses_literalForm (fun x hx hstarts => hf ⟨x, hx, hstarts⟩) value
  rintro f g ⟨x, hx, hf⟩ ⟨y, hy, hg⟩
  obtain rfl := Option.some.inj (hx.symm.trans hy)
  exact LiteralForm.eq_of_startsWith hf hg

theorem exclusive_typeForm (item : Rule TypeRef) (c : Cursor) : Exclusive (typeForm item) c := by
  refine exclusive_of_starts (fun f => ∃ x ∈ c.rest.head?, f.StartsWith x) ?_
    fun f hf => refuses_typeForm (fun x hx hstarts => hf ⟨x, hx, hstarts⟩) item
  rintro f g ⟨x, hx, hf⟩ ⟨y, hy, hg⟩
  obtain rfl := Option.some.inj (hx.symm.trans hy)
  exact TypeForm.eq_of_startsWith hf hg

theorem exclusive_queryForm (s : Strategy) (c : Cursor) : Exclusive (queryForm s) c :=
  exclusive_of_starts (fun f => f.Starts c.rest) QueryForm.eq_of_starts fun _ => refuses_queryForm

theorem exclusive_definitionForm (s : Strategy) (c : Cursor) : Exclusive (definitionForm s) c :=
  exclusive_of_starts (fun f => f.Starts c.rest) DefinitionForm.eq_of_starts fun _ => refuses_definitionForm

end Rule

/-! ### The grammar in another order -/

namespace Script

theorem Reorders.sepBy {item item' : Script α} (h : Reorders retry item item') (separator : Script Unit) :
    Reorders retry (sepBy item separator) (sepBy item' separator) := by
  refine .bind (.maybe h) fun found => ?_
  cases found with
  | none => exact .same _
  | some first => exact .bind (.many (.bind (.same _) fun _ => h)) fun _ => .same _

theorem Reorders.literalForm {value value' : Script Value} (h : Reorders retry value value') (f : LiteralForm) :
    Reorders retry (literalForm value f) (literalForm value' f) := by
  cases f with
  | object =>
    have hmember : Reorders retry (member value) (member value') :=
      .bind (.same _) fun _ => .bind (.same _) fun _ => .bind h fun _ => .same _
    exact .bind (.same _) fun _ => .nested (.bind (hmember.sepBy _) fun _ => .same _)
  | list => exact .bind (.same _) fun _ => .nested (.bind (h.sepBy _) fun _ => .same _)
  | _ => exact .same _

theorem Reorders.typeForm {item item' : Script TypeRef} (h : Reorders retry item item') (f : TypeForm) :
    Reorders retry (typeForm item f) (typeForm item' f) := by
  cases f with
  | named => exact .same _
  | list => exact .bind (.same _) fun _ => .nested (.bind h fun _ => .same _)

variable (h : s.Reorders t)

include h

theorem reorders_literal : Reorders s.retry (literal s) (literal t) := by
  refine .levels fun n => ?_
  induction n with
  | zero => exact .same _
  | succ n ih =>
    refine .choice h.literalForms ih.literalForm fun c => ?_
    simp only [run_literalForm]
    exact Rule.exclusive_literalForm s _ c

theorem reorders_typeRef : Reorders s.retry (typeRef s) (typeRef t) := by
  refine .levels fun n => ?_
  induction n with
  | zero => exact .same _
  | succ n ih =>
    refine .choice h.typeForms ih.typeForm fun c => ?_
    simp only [run_typeForm]
    exact Rule.exclusive_typeForm _ c

theorem reorders_declarations : Reorders s.retry (declarations s) (declarations t) := by
  have hdefault : Reorders s.retry (defaultValue s) (defaultValue t) := .bind (.same _) fun _ => reorders_literal h
  have hdeclaration : Reorders s.retry (declaration s) (declaration t) :=
    .bind (.same _) fun _ => .bind (.same _) fun _ => .bind (.same _) fun _ => .bind (.same _) fun _ =>
      .bind (reorders_typeRef h) fun _ => .bind (.maybe hdefault) fun _ => .same _
  exact .bind (.same _) fun _ => .bind (hdeclaration.sepBy _) fun _ => .same _

theorem reorders_queryForm (f : QueryForm) : Reorders s.retry (queryForm s f) (queryForm t f) := by
  cases f with
  | shorthand => exact .same _
  | declared =>
    exact .bind (.same _) fun _ => .bind (.same _) fun _ => .bind (.same _) fun _ =>
      .bind (.maybe (reorders_declarations h)) fun _ => .same _

theorem reorders_definitionForm (f : DefinitionForm) : Reorders s.retry (definitionForm s f) (definitionForm t f) := by
  cases f with
  | query =>
    refine .bind (.choice h.queryForms (reorders_queryForm h) fun c => ?_) fun _ => .same _
    simp only [run_queryForm]
    exact Rule.exclusive_queryForm s c
  | mutation => exact .same _

theorem reorders_document : Reorders s.retry (document s) (document t) := by
  refine .bind (.many (.choice h.definitionForms (reorders_definitionForm h) fun c => ?_)) fun _ => .same _
  simp only [run_definitionForm]
  exact Rule.exclusive_definitionForm s c

end Script

/-! ### Whole texts -/

theorem Script.Reorders.toEnd {x x' : Script α} (h : Reorders retry x x') : Reorders retry x.toEnd x'.toEnd :=
  .bind h fun _ => .same _

theorem Script.Reorders.result {x x' : Script α} (hs : s.Committed) (h : Reorders s.retry x x') (limits : Limits) (text : String) :
    SameUpToOrder ((x.run s.retry).result limits text) ((x'.run s.retry).result limits text) := by
  unfold Rule.result
  cases Cursor.open? limits text with
  | error err => exact .same _
  | ok c => exact (h.run hs c).map Prod.fst

/-- Trying the forms in another order changes no outcome but the order of the labels, since at every cursor at most
one form of a construct gets past its start. -/
theorem parse_reordered (h : Strategy.standard.Reorders s) :
    (∀ limits text,
      SameUpToOrder (Value.parse limits text) (Value.parseBy s limits text) ∧
      SameUpToOrder (TypeRef.parse limits text) (TypeRef.parseBy s limits text) ∧
      SameUpToOrder (Document.parse limits text) (Document.parseBy s limits text)) ∧
    ∀ c value item, Rule.Exclusive (Rule.literalForm s value) c ∧ Rule.Exclusive (Rule.typeForm item) c ∧
      Rule.Exclusive (Rule.queryForm s) c ∧ Rule.Exclusive (Rule.definitionForm s) c := by
  refine ⟨fun limits text => ?_, fun c value item => ⟨Rule.exclusive_literalForm s value c, Rule.exclusive_typeForm item c,
    Rule.exclusive_queryForm s c, Rule.exclusive_definitionForm s c⟩⟩
  have hs := Strategy.committed_standard
  have hliteral := (Script.reorders_literal h).toEnd.result hs limits text
  have htypeRef := (Script.reorders_typeRef h).toEnd.result hs limits text
  have hdocument := (Script.reorders_document h).result hs limits text
  rw [Script.run_toEnd, Script.run_toEnd, Script.run_literal, h.retry, Script.run_literal, ← Rule.parse_eq_result,
    ← Rule.parse_eq_result] at hliteral
  rw [Script.run_toEnd, Script.run_toEnd, Script.run_typeRef, h.retry, Script.run_typeRef, ← Rule.parse_eq_result,
    ← Rule.parse_eq_result] at htypeRef
  rw [Script.run_document, h.retry, Script.run_document, ← Document.parse_eq_result, ← Document.parseBy_eq_result] at hdocument
  exact ⟨hliteral, htypeRef, hdocument⟩

/-- The standard strategy with the forms of every construct the other way round. -/
def Strategy.reversed : Strategy where
  retry := Strategy.standard.retry
  literalForms := Strategy.standard.literalForms.reverse
  typeForms := Strategy.standard.typeForms.reverse
  queryForms := Strategy.standard.queryForms.reverse
  definitionForms := Strategy.standard.definitionForms.reverse

theorem Strategy.reorders_reversed : Strategy.standard.Reorders .reversed where
  retry := rfl
  literalForms := (List.reverse_perm _).symm
  typeForms := (List.reverse_perm _).symm
  queryForms := (List.reverse_perm _).symm
  definitionForms := (List.reverse_perm _).symm

/-- Where no value stands in a list, the other way round the values are expected in another order. -/
theorem parse_reversed_missing_item :
    Strategy.standard.Reorders .reversed ∧
      SameUpToOrder (Value.parse ⟨64, 8⟩ "[1, x]") (Value.parseBy .reversed ⟨64, 8⟩ "[1, x]") ∧
      Value.parse ⟨64, 8⟩ "[1, x]" = .error (.mismatch 4 ⟨1, 5⟩ ⟨["number", "'\x7b'", "'['", "'true'", "'false'", "'null'"]⟩) ∧
      Value.parseBy .reversed ⟨64, 8⟩ "[1, x]" =
        .error (.mismatch 4 ⟨1, 5⟩ ⟨["'null'", "'false'", "'true'", "'['", "'\x7b'", "number"]⟩) :=
  ⟨Strategy.reorders_reversed, ((parse_reordered Strategy.reorders_reversed).1 ⟨64, 8⟩ "[1, x]").1,
    by with_unfolding_all rfl, by with_unfolding_all rfl⟩

end RequestDoc

import RequestDoc.Proofs.Rule.Commit

/-!
The grammar under the commit rule. Each rule of the grammar comes to alike outcomes by a strategy that commits
and by one that does not. Only the default value of a variable may be given up behind its start; then the
equals sign stands where a comma or the closing parenthesis would have to.
-/

namespace RequestDoc.Rule

variable {β : Type} {s t : Strategy} {c d : Cursor} {err : ParseError}

/-! ### Literals and type references -/

theorem heeds_literalWithin (s : Strategy) (levels : Nat) : (literalWithin s levels).Heeds .closeBracket := by
  cases levels with
  | zero =>
    intro c err _ herr he
    obtain rfl := Except.error.inj herr
    cases he
  | succ levels =>
    refine Refuses.heeds fun hc => refuses_literalWithin (fun x hx => ?_) levels
    obtain rfl := Option.some.inj (hc.symm.trans hx)
    exact LiteralForm.not_startsWith (by decide) (by decide)

theorem heeds_member (value : Rule Value) : (member value).Heeds .closeBrace :=
  Refuses.heeds fun hc => (refuses_lexeme (Lexeme.quoted_refuses fun x hx => by
    obtain rfl := Option.some.inj (hc.symm.trans hx)
    decide)).bind _

theorem alike_literalForm (hs : s.Relaxes t) {value value' : Rule Value} (hm : value.Moves) (hm' : value'.Moves)
    (hheeds : value.Heeds .closeBracket) (h : ∀ {c}, c.Valid → Alike (value c) (value' c)) (hc : c.Valid)
    (f : LiteralForm) : Alike (literalForm s value f c) (literalForm t value' f c) := by
  have hbracket : ∀ {α : Type} {opening closing : Token} {item item' : Rule α} (build : List α → Value),
      item.Moves → item'.Moves → closing.text.toList.head? ≠ some ',' → item.Heeds closing →
      (∀ {c}, c.Valid → Alike (item c) (item' c)) →
      Alike (bracketed s.retry opening closing item build c) (bracketed t.retry opening closing item' build c) := by
    intro α opening closing item item' build hm hm' hclosing hheeds hitem
    refine Alike.bind (.same _) fun {u d} hopen => ?_
    obtain ⟨text, -, hreads, -⟩ := reads_token hopen
    exact Alike.nested (alike_row hs build hm hm' hclosing hheeds (fun hv => .alike (hitem hv))
      ((hreads.valid hc).withDepth _))
  cases f with
  | object =>
    refine hbracket (fun members => .object (.ofList members)) hm.member hm'.member (by decide) (heeds_member value)
      fun {c} hv => ?_
    refine Alike.bind (.same _) fun {key d} hkey => ?_
    obtain ⟨text, h1⟩ := moves_quoted.reads hkey
    refine Alike.bind (.same _) fun {u e} hcolon => ?_
    obtain ⟨more, -, h2, -⟩ := reads_token hcolon
    exact Alike.bind (h (h2.valid (h1.valid hv))) fun _ => .same _
  | list => exact hbracket .list hm hm' (by decide) hheeds h
  | _ => exact .same _

theorem alike_literalWithin (hs : s.Relaxes t) {levels : Nat} (hc : c.Valid) :
    Alike (literalWithin s levels c) (literalWithin t levels c) := by
  induction levels generalizing c with
  | zero => exact .same _
  | succ levels ih =>
    refine alike_choice hs (fun f => ∃ x ∈ c.rest.head?, f.StartsWith x) hs.thorough.literalForms
      hs.thorough'.literalForms ?_ (fun f _ => ?_) fun f hf => ?_
    · rintro f g ⟨x, hx, hf⟩ ⟨y, hy, hg⟩
      obtain rfl := Option.some.inj (hx.symm.trans hy)
      exact LiteralForm.eq_of_startsWith hf hg
    · exact alike_literalForm hs (moves_literalWithin s levels) (moves_literalWithin t levels)
        (heeds_literalWithin s levels) ih hc f
    · exact ⟨refuses_literalForm (fun x hx hs => hf ⟨x, hx, hs⟩) _, refuses_literalForm (fun x hx hs => hf ⟨x, hx, hs⟩) _⟩

theorem alike_literal (hs : s.Relaxes t) (hc : c.Valid) : Alike (literal s c) (literal t c) :=
  alike_literalWithin hs hc

theorem alike_typeForm {item item' : Rule TypeRef} (h : ∀ {c}, c.Valid → Alike (item c) (item' c)) (hc : c.Valid)
    (f : TypeForm) : Alike (typeForm item f c) (typeForm item' f c) := by
  cases f with
  | named => exact .same _
  | list =>
    refine Alike.bind (.same _) fun {u d} hopen => ?_
    obtain ⟨text, -, hreads, -⟩ := reads_token hopen
    exact Alike.nested (Alike.bind (h ((hreads.valid hc).withDepth _)) fun _ => .same _)

theorem alike_typeRefWithin (hs : s.Relaxes t) {levels : Nat} (hc : c.Valid) :
    Alike (typeRefWithin s levels c) (typeRefWithin t levels c) := by
  induction levels generalizing c with
  | zero => exact .same _
  | succ levels ih =>
    refine alike_choice hs (fun f => ∃ x ∈ c.rest.head?, f.StartsWith x) hs.thorough.typeForms
      hs.thorough'.typeForms ?_ (fun f _ => alike_typeForm ih hc f) fun f hf => ?_
    · rintro f g ⟨x, hx, hf⟩ ⟨y, hy, hg⟩
      obtain rfl := Option.some.inj (hx.symm.trans hy)
      exact TypeForm.eq_of_startsWith hf hg
    · exact ⟨refuses_typeForm (fun x hx hs => hf ⟨x, hx, hs⟩) _, refuses_typeForm (fun x hx hs => hf ⟨x, hx, hs⟩) _⟩

theorem alike_typeRef (hs : s.Relaxes t) (hc : c.Valid) : Alike (typeRef s c) (typeRef t c) :=
  alike_typeRefWithin hs hc

/-! ### Definitions -/

/-- A rule that starts with a token fails behind its start only if the token was read. -/
theorem token_of_late {k : Token} {next : Unit → Rule β} (h : (token k >>= next) c = .error err)
    (hf : err.failsAt c.offset = false) : ∃ d, token k c = .ok ((), d) ∧ next () d = .error err := by
  rcases bind_eq_error.mp h with hk | ⟨⟨⟩, d, hk, hr⟩
  · obtain ⟨m, hm, rfl⟩ := lexeme_eq_error.mp hk
    have hstart : (ParseError.ofMismatch m).failsAt c.offset = true := by
      rw [Lexeme.token_eq_error hm]
      exact beq_self_eq_true c.offset
    rw [hstart] at hf
    cases hf
  · exact ⟨d, hk, hr⟩

theorem refuses_token_of_token {k l : Token} {u : Unit} (h : token k c = .ok (u, d))
    (hne : k.text.toList.head? ≠ l.text.toList.head?) : (token l).Refuses c := by
  refine refuses_token_of_head ?_
  rwa [Lexeme.head?_of_token (token_eq_ok.mp h)]

/-- A default value that fails behind its equals sign leaves the strategy that does not commit before that
sign. -/
theorem alikeItem_default (hs : s.Relaxes t) (build : Option Value → β) (hc : c.Valid) :
    AlikeItem .closeParen c ((maybe s.retry (defaultValue s) >>= fun v => pure (build v)) c)
      ((maybe t.retry (defaultValue t) >>= fun v => pure (build v)) c) := by
  have hdefault : Alike (defaultValue s c) (defaultValue t c) := by
    refine Alike.bind (.same _) fun {u d} hequals => ?_
    obtain ⟨text, -, hreads, -⟩ := reads_token hequals
    exact alike_literal hs (hreads.valid hc)
  by_cases hlate : ∃ err, defaultValue s c = .error err ∧ err.isMismatch = true ∧ err.failsAt c.offset = false
  · obtain ⟨err, hr, he, hf⟩ := hlate
    obtain ⟨err', hr', he'⟩ := (hr ▸ hdefault).of_mismatch he
    obtain ⟨d, hequals, hliteral⟩ := token_of_late hr hf
    obtain ⟨text, ⟨w, -, rfl⟩, hreads, -⟩ := reads_token hequals
    have hlt := hreads.offset_lt (List.append_ne_nil_of_left_ne_nil Token.equals.text_ne_nil w)
    have hyields' : Yields t.retry (defaultValue t) c := ⟨err', hr', (hs.lenient err' c.offset).trans he'⟩
    rw [bind_of_error (maybe_eq_error.mpr ⟨hr, (hs.committed err c.offset).trans hf⟩),
      bind_of_ok (maybe_eq_ok.mpr (Or.inr ⟨rfl, rfl, hyields'⟩))]
    refine .stuck he (fun start hstart => ?_) (refuses_token_of_token hequals (by decide))
      (refuses_token_of_token hequals (by decide))
    exact ((moves_literal s).meets hliteral).failsAt_of_lt (Nat.lt_of_le_of_lt hstart hlt)
  · exact .alike (alike_maybe hs hdefault (fun _ => .same _) (.same _) fun hr he hf => absurd ⟨_, hr, he, hf⟩ hlate)

theorem alikeItem_declaration (hs : s.Relaxes t) (hc : c.Valid) :
    AlikeItem .closeParen c (declaration s c) (declaration t c) := by
  refine AlikeItem.bind (.same _) moves_position fun {place c₁} h1 => ?_
  refine AlikeItem.bind (.same _) (moves_token _) fun {u c₂} h2 => ?_
  refine AlikeItem.bind (.same _) moves_name fun {name c₃} h3 => ?_
  refine AlikeItem.bind (.same _) (moves_token _) fun {u c₄} h4 => ?_
  have hv : c₄.Valid := by
    obtain ⟨_, r1⟩ := moves_position.reads h1
    obtain ⟨_, r2⟩ := (moves_token _).reads h2
    obtain ⟨_, r3⟩ := moves_name.reads h3
    obtain ⟨_, r4⟩ := (moves_token _).reads h4
    exact r4.valid (r3.valid (r2.valid (r1.valid hc)))
  refine AlikeItem.bind (alike_typeRef hs hv) (moves_typeRef s) fun {type c₅} h5 => ?_
  obtain ⟨_, r5⟩ := (moves_typeRef s).reads h5
  exact alikeItem_default hs (fun v => (⟨place, ⟨name⟩, type, v⟩ : Variable)) (r5.valid hv)

theorem alike_declarations (hs : s.Relaxes t) (hc : c.Valid) : Alike (declarations s c) (declarations t c) := by
  refine Alike.bind (.same _) fun {u d} hopen => ?_
  obtain ⟨text, -, hreads, -⟩ := reads_token hopen
  refine alike_row hs id (moves_declaration s) (moves_declaration t) (by decide) (Refuses.heeds fun hd => ?_)
    (fun hv => alikeItem_declaration hs hv) (hreads.valid hc)
  exact ((refuses_token_of_head (by rw [hd]; decide)).bind _).placed

theorem alike_queryForm (hs : s.Relaxes t) (hc : c.Valid) (f : QueryForm) :
    Alike (queryForm s f c) (queryForm t f c) := by
  cases f with
  | shorthand => exact .same _
  | declared =>
    refine Alike.bind (.same _) fun {place c₁} h1 => ?_
    refine Alike.bind (.same _) fun {u c₂} h2 => ?_
    refine Alike.bind (.same _) fun {name c₃} h3 => ?_
    have hv : c₃.Valid := by
      obtain ⟨_, r1⟩ := moves_position.reads h1
      obtain ⟨_, r2⟩ := (moves_token _).reads h2
      obtain ⟨_, r3⟩ := moves_name.reads h3
      exact r3.valid (r2.valid (r1.valid hc))
    refine alike_maybe hs (alike_declarations hs hv) (fun _ => .same _) (.same _) fun hr _ hf => ?_
    -- without the declarations a brace would have to stand where their parenthesis stands
    obtain ⟨_, hparen, -⟩ := token_of_late hr hf
    exact ((refuses_token_of_token hparen (by decide)).bind _).mismatch

theorem alike_query (hs : s.Relaxes t) (hc : c.Valid) : Alike (query s c) (query t c) :=
  alike_choice hs (fun f => f.Starts c.rest) hs.thorough.queryForms hs.thorough'.queryForms
    QueryForm.eq_of_starts (fun f _ => alike_queryForm hs hc f)
    fun _ hf => ⟨refuses_queryForm hf, refuses_queryForm hf⟩

theorem alike_definition (hs : s.Relaxes t) (hc : c.Valid) : Alike (definition s c) (definition t c) := by
  refine alike_choice hs (fun f => f.Starts c.rest) hs.thorough.definitionForms hs.thorough'.definitionForms
    DefinitionForm.eq_of_starts (fun f _ => ?_)
    fun _ hf => ⟨refuses_definitionForm hf, refuses_definitionForm hf⟩
  cases f with
  | query => exact Alike.bind (alike_query hs hc) fun _ => .same _
  | mutation => exact .same _

end RequestDoc.Rule

import RequestDoc.Proofs.Lexeme.Exact
import RequestDoc.Proofs.Rule.Outcome
import RequestDoc.Rule.Definition

/-!
Rules look ahead. A rule that succeeds reads some text, and the error of one that fails is met ahead of the
cursor. Lexemes do so, and every way of putting rules together keeps it, so it holds of all rules by any
strategy. A row of items then shrinks what is left with each item, which is why reading items with commas
gives the whole row.
-/

namespace RequestDoc.Rule

variable {α β : Type} {retry : Retry} {c d : Cursor} {err : ParseError}

/-- What the rule reads comes next, and its errors are met ahead. -/
structure Moves (rule : Rule α) : Prop where
  reads : ∀ {c d : Cursor} {a : α}, rule c = .ok (a, d) → ∃ text, c.Reads text d
  meets : ∀ {c : Cursor} {err : ParseError}, rule c = .error err → c.Meets err

theorem meets_ofMismatch {text : List Char} (h : c.Reads text d) (label : String) :
    c.Meets (.ofMismatch (d.mismatch label)) :=
  .mismatch _ h

/-- A token is read from its spelling and the blanks behind it. -/
theorem reads_token {t : Token} {u : Unit} (h : token t c = .ok (u, d)) :
    ∃ text, Grammar.Punctuation t text ∧ c.Reads text d ∧ Flush d.rest :=
  (Lexeme.token_eq_ok (token_eq_ok.mp h)).reads

theorem token_of_mark {t : Token} {text : List Char} (hk : t.isKeyword = false) (ht : Grammar.Punctuation t text)
    (h : c.Reads text d) (hd : Flush d.rest) : token t c = .ok ((), d) :=
  token_eq_ok.mpr (Lexeme.mark_of_reads hk ht h hd)

theorem reads_name {name : String} (h : lexeme Lexeme.name c = .ok (name, d)) :
    ∃ text, Grammar.Named text name ∧ c.Reads text d ∧ Flush d.rest := by
  obtain ⟨hname, hp, -⟩ := Lexeme.name_eq_ok_iff.mp (lexeme_eq_ok.mp h)
  obtain ⟨text, hs, hr, hflush⟩ := hp.reads
  exact ⟨text, ⟨hname, hs⟩, hr, hflush⟩

theorem reads_of_passes {word : List Char} (h : c.Passes word d) : ∃ text, c.Reads text d := by
  obtain ⟨text, -, hr, -⟩ := h.reads
  exact ⟨text, hr⟩

/-! ### Lexemes -/

theorem moves_token (t : Token) : (token t).Moves where
  reads h := reads_of_passes (Lexeme.token_eq_ok (token_eq_ok.mp h))
  meets h := by
    obtain ⟨m, hm, rfl⟩ := lexeme_eq_error.mp h
    rw [Lexeme.token_eq_error hm]
    exact meets_ofMismatch (.refl _) _

theorem moves_tokenIf (t : Token) : (tokenIf t).Moves where
  reads h := by
    rcases tokenIf_eq_ok.mp h with ⟨-, ht⟩ | ⟨-, rfl, -⟩
    · exact reads_of_passes (Lexeme.token_eq_ok ht)
    · exact ⟨[], .refl _⟩
  meets h := by
    unfold tokenIf at h
    split at h <;> cases h

theorem moves_name : (lexeme Lexeme.name).Moves where
  reads h := reads_of_passes (Lexeme.name_eq_ok (lexeme_eq_ok.mp h))
  meets h := by
    obtain ⟨m, hm, rfl⟩ := lexeme_eq_error.mp h
    rw [Lexeme.name_eq_error hm]
    exact meets_ofMismatch (.refl _) _

theorem moves_number : (lexeme Lexeme.number).Moves where
  reads h := by
    obtain ⟨n, -, -, hp⟩ := Lexeme.number_eq_ok (lexeme_eq_ok.mp h)
    exact reads_of_passes hp
  meets h := by
    obtain ⟨m, hm, rfl⟩ := lexeme_eq_error.mp h
    rw [Lexeme.number_eq_error hm]
    exact meets_ofMismatch (.refl _) _

theorem moves_quoted : (lexeme Lexeme.quoted).Moves where
  reads h := by
    obtain ⟨raw, -, hp⟩ := Lexeme.quoted_eq_ok (lexeme_eq_ok.mp h)
    exact reads_of_passes hp
  meets h := by
    obtain ⟨m, hm, rfl⟩ := lexeme_eq_error.mp h
    obtain ⟨read, d, label, hr, rfl⟩ := Lexeme.quoted_eq_error hm
    exact meets_ofMismatch hr label

theorem moves_endOfInput : (lexeme Lexeme.endOfInput).Moves where
  reads h := by
    obtain ⟨rfl, -⟩ := Lexeme.endOfInput_eq_ok (lexeme_eq_ok.mp h)
    exact ⟨_, Cursor.reads_skipBlanks _⟩
  meets {c err} h := by
    obtain ⟨m, hm, rfl⟩ := lexeme_eq_error.mp h
    simp only [Lexeme.endOfInput] at hm
    split at hm
    · cases hm
    · obtain rfl := Except.error.inj hm
      exact meets_ofMismatch (Cursor.reads_skipBlanks c) _

theorem moves_position : position.Moves where
  reads h := by
    obtain ⟨-, rfl⟩ := Prod.mk.inj (Except.ok.inj h)
    exact ⟨[], .refl _⟩
  meets h := nomatch h

theorem moves_tooDeep : Moves (fun c => .error (.tooDeep c.depthLimit c.position) : Rule α) where
  reads h := nomatch h
  meets h := by
    obtain rfl := Except.error.inj h
    exact .tooDeep (.refl _)

/-! ### Ways of putting rules together -/

theorem moves_pure (a : α) : (pure a : Rule α).Moves where
  reads h := by
    obtain ⟨-, rfl⟩ := Prod.mk.inj (Except.ok.inj h)
    exact ⟨[], .refl _⟩
  meets h := nomatch h

theorem Moves.bind {rule : Rule α} {next : α → Rule β} (h : rule.Moves) (hn : ∀ a, (next a).Moves) :
    (rule >>= next).Moves where
  reads hok := by
    obtain ⟨a, d, hr, hd⟩ := bind_eq_ok.mp hok
    obtain ⟨text, h1⟩ := h.reads hr
    obtain ⟨more, h2⟩ := (hn a).reads hd
    exact ⟨text ++ more, h1.trans h2⟩
  meets herr := by
    rcases bind_eq_error.mp herr with hr | ⟨a, d, hr, hd⟩
    · exact h.meets hr
    · obtain ⟨text, h1⟩ := h.reads hr
      exact ((hn a).meets hd).of_reads h1

theorem moves_choice {rules : List (Rule α)} (h : ∀ rule ∈ rules, rule.Moves) : (choice retry rules).Moves where
  reads hok := by
    obtain ⟨rule, hm, hr⟩ := choice_eq_ok hok
    exact (h rule hm).reads hr
  meets := of_choice_eq_error (fun rule hm _ => (h rule hm).meets) (fun hm _ => hm.merge _) (meets_ofMismatch (.refl _) _)

theorem Moves.maybe {rule : Rule α} (h : rule.Moves) : (maybe retry rule).Moves where
  reads hok := by
    rcases maybe_eq_ok.mp hok with ⟨a, -, hr⟩ | ⟨-, rfl, -⟩
    · exact h.reads hr
    · exact ⟨[], .refl _⟩
  meets herr := h.meets (maybe_eq_error.mp herr).1

theorem Moves.run {rule : Rule α} (h : rule.Moves) {as : List α} (hr : Run rule c as d) :
    ∃ text, c.Reads text d := by
  induction hr with
  | nil => exact ⟨[], .refl _⟩
  | cons hr _ _ ih =>
    obtain ⟨text, h1⟩ := h.reads hr
    obtain ⟨more, h2⟩ := ih
    exact ⟨text ++ more, h1.trans h2⟩

theorem Moves.meets_collect {rule : Rule α} (h : rule.Moves) {as : List α}
    (hcol : collect retry rule c = (as, .error err)) : c.Meets err := by
  obtain ⟨d, hrun, hr, -⟩ := collect_eq_error.mp hcol
  obtain ⟨text, h1⟩ := h.run hrun
  exact (h.meets hr).of_reads h1

theorem Moves.many {rule : Rule α} (h : rule.Moves) : (many retry rule).Moves where
  reads hok := h.run (many_eq_ok_iff.mp hok).1
  meets herr := by
    obtain ⟨as, hend⟩ := many_eq_error.mp herr
    exact h.meets_collect (collect_eq_error.mpr hend)

theorem Moves.items {item : Rule α} (h : item.Moves) {as : List α} (hi : Items item c as d) :
    ∃ text, c.Reads text d := by
  induction hi with
  | none => exact ⟨[], .refl _⟩
  | one hr => exact h.reads hr
  | more hr ht _ ih =>
    obtain ⟨text, h1⟩ := h.reads hr
    obtain ⟨comma, h2⟩ := reads_of_passes (Lexeme.token_eq_ok ht)
    obtain ⟨more, h3⟩ := ih
    exact ⟨text ++ (comma ++ more), h1.trans (h2.trans h3)⟩

theorem Moves.sepBy {item : Rule α} (h : item.Moves) : (sepBy retry item (token .comma)).Moves where
  reads hok := h.items (sepBy_eq_ok hok)
  meets herr := by
    rcases sepBy_eq_error herr with hi | ⟨as, d, has, ht | ⟨e, ht, hi⟩⟩
    · exact h.meets hi
    · obtain ⟨text, h1⟩ := h.items has
      exact ((moves_token .comma).meets ht).of_reads h1
    · obtain ⟨text, h1⟩ := h.items has
      obtain ⟨comma, h2⟩ := reads_of_passes (Lexeme.token_eq_ok ht)
      exact (h.meets hi).of_reads (h1.trans h2)

theorem Moves.nested {rule : Rule α} (h : rule.Moves) : (nested rule).Moves where
  reads hok := by
    obtain ⟨-, e, hr, rfl⟩ := nested_eq_ok.mp hok
    obtain ⟨text, h1⟩ := h.reads hr
    exact ⟨text, h1.of_withDepth⟩
  meets herr := by
    rcases nested_eq_error.mp herr with ⟨-, rfl⟩ | ⟨-, hr⟩
    · exact .tooDeep (.refl _)
    · exact (h.meets hr).of_withDepth

/-! ### Items with commas -/

theorem run_of_items {item : Rule α} (hm : item.Moves) {as : List α} (h : Items item c as d) (hc : c.Valid) :
    (as = [] ∧ d = c) ∨
      ∃ a others e, as = a :: others ∧ item c = .ok (a, e) ∧ Run (do token .comma; item) e others d := by
  induction h with
  | none => exact Or.inl ⟨rfl, rfl⟩
  | one hr => exact Or.inr ⟨_, [], _, rfl, hr, .nil _⟩
  | @more c d e f a b as hr ht _ ih =>
    obtain ⟨text, h1⟩ := hm.reads hr
    obtain ⟨comma, ⟨w, -, rfl⟩, h2, -⟩ := (Lexeme.token_eq_ok ht).reads
    have hd := h1.valid hc
    rcases ih (h2.valid hd) with ⟨h, -⟩ | ⟨b', others, g, heq, hi, hrun⟩
    · cases h
    · obtain ⟨rfl, rfl⟩ := List.cons.inj heq
      obtain ⟨next, h3⟩ := hm.reads hi
      have hboth : (do token .comma; item) d = .ok (b, g) :=
        bind_eq_ok.mpr ⟨(), e, token_eq_ok.mpr ht, hi⟩
      have hne : Token.comma.text.toList ++ w ++ next ≠ [] :=
        List.append_ne_nil_of_left_ne_nil (List.append_ne_nil_of_left_ne_nil Token.comma.text_ne_nil w) next
      exact Or.inr ⟨a, b :: as, d, rfl, hr, .cons hboth ((h2.trans h3).left_lt hd hne) hrun⟩

/-- A row of items is read as a whole if no comma follows it. -/
theorem sepBy_of_items {item : Rule α} (hm : item.Moves) {as : List α} (h : Items item c as d) (hc : c.Valid)
    (hempty : as = [] → Yields retry item c) (hend : Yields retry (token .comma) d) :
    sepBy retry item (token .comma) c = .ok (as, d) := by
  rcases run_of_items hm h hc with ⟨rfl, rfl⟩ | ⟨a, others, e, rfl, hi, hrun⟩
  · exact bind_eq_ok.mpr ⟨none, d, maybe_eq_ok.mpr (Or.inr ⟨rfl, rfl, hempty rfl⟩), rfl⟩
  · obtain ⟨err, ht, hretry⟩ := hend
    have hstops : Stops retry (do token .comma; item) d := Or.inr ⟨err, bind_of_error ht, hretry⟩
    refine bind_eq_ok.mpr ⟨some a, e, maybe_eq_ok.mpr (Or.inl ⟨a, rfl, hi⟩), ?_⟩
    exact bind_eq_ok.mpr ⟨others, d, many_eq_ok_iff.mpr ⟨hrun, hstops⟩, rfl⟩

/-! ### The rules of the grammar -/

variable (s : Strategy)

theorem Moves.member {value : Rule Value} (h : value.Moves) : (member value).Moves :=
  moves_quoted.bind fun _ => (moves_token _).bind fun _ => h.bind fun _ => moves_pure _

theorem Moves.literalForm {value : Rule Value} (h : value.Moves) (f : LiteralForm) : (literalForm s value f).Moves := by
  cases f with
  | number => exact moves_number.bind fun _ => moves_pure _
  | object =>
    exact (moves_token _).bind fun _ => Moves.nested <|
      h.member.sepBy.bind fun _ => (moves_token _).bind fun _ => moves_pure _
  | list =>
    exact (moves_token _).bind fun _ => Moves.nested <|
      h.sepBy.bind fun _ => (moves_token _).bind fun _ => moves_pure _
  | boolean b => exact (moves_token _).bind fun _ => moves_pure _
  | null => exact (moves_token _).bind fun _ => moves_pure _

theorem moves_literalWithin (levels : Nat) : (literalWithin s levels).Moves := by
  induction levels with
  | zero => exact moves_tooDeep
  | succ levels ih =>
    refine moves_choice fun rule hm => ?_
    obtain ⟨f, -, rfl⟩ := List.mem_map.mp hm
    exact ih.literalForm s f

theorem moves_literal : (literal s).Moves where
  reads h := (moves_literalWithin s _).reads h
  meets h := (moves_literalWithin s _).meets h

theorem Moves.typeForm {item : Rule TypeRef} (h : item.Moves) (f : TypeForm) : (typeForm item f).Moves := by
  cases f with
  | named => exact moves_name.bind fun _ => (moves_tokenIf _).bind fun _ => moves_pure _
  | list =>
    exact (moves_token _).bind fun _ => Moves.nested <|
      h.bind fun _ => (moves_token _).bind fun _ => (moves_tokenIf _).bind fun _ => moves_pure _

theorem moves_typeRefWithin (levels : Nat) : (typeRefWithin s levels).Moves := by
  induction levels with
  | zero => exact moves_tooDeep
  | succ levels ih =>
    refine moves_choice fun rule hm => ?_
    obtain ⟨f, -, rfl⟩ := List.mem_map.mp hm
    exact ih.typeForm f

theorem moves_typeRef : (typeRef s).Moves where
  reads h := (moves_typeRefWithin s _).reads h
  meets h := (moves_typeRefWithin s _).meets h

theorem moves_declaration : (declaration s).Moves := by
  have hvalue : (defaultValue s).Moves := (moves_token _).bind fun _ => moves_literal s
  exact moves_position.bind fun _ => (moves_token _).bind fun _ => moves_name.bind fun _ =>
    (moves_token _).bind fun _ => (moves_typeRef s).bind fun _ => hvalue.maybe.bind fun _ => moves_pure _

theorem moves_declarations : (declarations s).Moves :=
  (moves_token _).bind fun _ => (moves_declaration s).sepBy.bind fun _ =>
    (moves_token _).bind fun _ => moves_pure _

theorem moves_queryForm (f : QueryForm) : (queryForm s f).Moves := by
  cases f with
  | shorthand =>
    exact moves_position.bind fun _ => (moves_token _).bind fun _ => moves_name.bind fun _ =>
      (moves_token _).bind fun _ => moves_pure _
  | declared =>
    exact moves_position.bind fun _ => (moves_token _).bind fun _ => moves_name.bind fun _ =>
      (moves_declarations s).maybe.bind fun _ => (moves_token _).bind fun _ => moves_pure _

theorem moves_query : (query s).Moves := by
  refine moves_choice fun rule hm => ?_
  obtain ⟨f, -, rfl⟩ := List.mem_map.mp hm
  exact moves_queryForm s f

theorem moves_definitionForm (f : DefinitionForm) : (definitionForm s f).Moves := by
  cases f with
  | query => exact (moves_query s).bind fun _ => moves_pure _
  | mutation => exact moves_position.bind fun _ => (moves_token _).bind fun _ => moves_pure _

theorem moves_definition : (definition s).Moves := by
  refine moves_choice fun rule hm => ?_
  obtain ⟨f, -, rfl⟩ := List.mem_map.mp hm
  exact moves_definitionForm s f

end RequestDoc.Rule

import RequestDoc.Proofs.Rule.First.Grammar
import RequestDoc.Proofs.Rule.Levels

/-!
Every rule makes progress. A rule of the grammar that succeeds reads something and ends before no blank, and one that
fails does so at its start exactly if no lexeme starts there that it can start with. So a repetition takes no more rounds
than bytes are left, none of them without reading anything, and the recursion goes no deeper than that, which ends every
parse whatever the limit of brackets.
-/

namespace RequestDoc

variable {α : Type} {c d : Cursor} {limits : Limits} {text : String}

/-- The outcome of a rule at a cursor: the rule goes on to a later cursor of the same text, with the same limit and as many
brackets open, which stands before no blank; or it expects something else, at its start exactly if none of the lexemes
starts there that it can start with, and else behind it. -/
structure Cursor.Progresses (c : Cursor) (firsts : List FirstLexeme) (outcome : Except ParseError (α × Cursor)) : Prop where
  same : ∀ {a d}, outcome = .ok (a, d) → d.text = c.text ∧ d.depth = c.depth ∧ d.depthLimit = c.depthLimit
  further : ∀ {a d}, outcome = .ok (a, d) → c.offset < d.offset ∧ (d.atEnd = true ∨ ∃ x ∈ d.rest.head?, ¬Character.isBlank x)
  mismatch : ∀ {offset place expected}, outcome = .error (.mismatch offset place expected) →
    c.offset ≤ offset ∧ (offset = c.offset ↔ ¬AnyStarts firsts c.rest)

/-- What bounds a parse at a cursor: every round of a repetition but the last one gives an item; rows of items and
definitions take no more rounds than bytes are left, one if nothing is left; a definition leaves less; and literals and
references, which are choices of forms with literals and references in them, go down no more levels than bytes are left
or brackets may be opened. -/
structure Cursor.Bounded (c : Cursor) : Prop where
  rounds : ∀ {α : Type} (rule : Rule α), rule.rounds c = (Rule.collect Strategy.standard.retry rule c).1.length + 1
  rows : ∀ {α : Type} (kind : Rule.Kind α), Rule.rounds (do Rule.token .comma; kind.rule) c ≤ max 1 c.left
  definitions : Rule.rounds (Rule.definition .standard) c ≤ max 1 c.left
  consumes : ∀ {x d}, Rule.definition .standard c = .ok (x, d) → d.left < c.left
  literal : Rule.literal .standard c =
    Rule.choice Strategy.standard.retry (Strategy.standard.literalForms.map (Rule.literalForm .standard (Rule.literal .standard))) c
  typeRef : Rule.typeRef .standard c =
    Rule.choice Strategy.standard.retry (Strategy.standard.typeForms.map (Rule.typeForm (Rule.typeRef .standard))) c
  levels : ∀ levels, min c.room c.left < levels →
    Rule.literalWithin .standard levels c = Rule.literal .standard c ∧
      Rule.typeRefWithin .standard levels c = Rule.typeRef .standard c

theorem Flush.atEnd_or (h : Flush d.rest) : d.atEnd = true ∨ ∃ x ∈ d.rest.head?, ¬Character.isBlank x := by
  unfold Cursor.atEnd
  cases hr : d.rest with
  | nil => exact Or.inl rfl
  | cons x rest =>
    rw [hr] at h
    exact Or.inr ⟨x, rfl, by simp [h x rfl]⟩

theorem Rule.Kind.progresses (kind : Kind α) (c : Cursor) : c.Progresses kind.firsts (kind.rule c) where
  same h := by
    obtain ⟨read, hr⟩ := kind.moves.reads h
    exact ⟨by rw [hr.eq_past]; rfl, hr.depth, hr.depthLimit⟩
  further h := ⟨(kind.told.ok h).1, (kind.told.ok h).2.atEnd_or⟩
  mismatch {offset place expected} h := by
    have hmeets := kind.moves.meets h
    have hfails := kind.told.failsAt_iff h
    refine ⟨?_, by simpa [ParseError.failsAt] using hfails⟩
    generalize herr : ParseError.mismatch offset place expected = err at hmeets
    cases hmeets with
    | mismatch _ hr =>
      obtain ⟨rfl, -, -⟩ := ParseError.mismatch.inj herr
      exact hr.offset_le
    | tooDeep => cases herr

theorem Cursor.Valid.bounded (h : c.Valid) : c.Bounded where
  rounds rule := Rule.rounds_eq_length_collect _ rule c
  rows kind := Rule.rounds_le (kind.told.spends kind.moves).behind_comma h
  definitions := Rule.rounds_le (Rule.spends_definition .standard) h
  consumes {x d} hok := by
    obtain ⟨read, hr, hread⟩ := (Rule.spends_definition .standard).reads hok
    rw [h.left, (hr.valid h).left, hr.rest, byteSize_append]
    omega
  literal := Rule.literal_eq_choice h
  typeRef := Rule.typeRef_eq_choice h
  levels _ hlevels := ⟨Rule.literalWithin_eq_literal h hlevels, Rule.typeRefWithin_eq_typeRef h hlevels⟩

theorem Rule.parse_congr {rule rule' : Rule α} (h : ∀ c, Cursor.open? limits text = .ok c → rule c = rule' c) :
    rule.parse limits text = rule'.parse limits text := by
  rw [parse_eq_result, parse_eq_result, result, result]
  cases hopen : Cursor.open? limits text with
  | error err => rfl
  | ok c =>
    show Prod.fst <$> Except.bind (rule c) _ = Prod.fst <$> Except.bind (rule' c) _
    rw [h c hopen]

/-- At every cursor in a text the rules of the grammar make progress, and what is left bounds their repetitions and
their recursion. Levels beyond the size of a text change nothing in what is parsed of it. -/
theorem rules_progress :
    (∀ {c : Cursor}, c.Valid → (∀ {α : Type} (kind : Rule.Kind α), c.Progresses kind.firsts (kind.rule c)) ∧ c.Bounded) ∧
    ∀ limits text,
      (∀ levels, text.utf8ByteSize < levels →
        (Rule.literalWithin .standard levels).parse limits text = Value.parse limits text ∧
        (Rule.typeRefWithin .standard levels).parse limits text = TypeRef.parse limits text) ∧
      (Document.read .standard limits text).1.length + 1 ≤ max 1 text.utf8ByteSize := by
  refine ⟨fun hc => ⟨fun kind => kind.progresses _, hc.bounded⟩, fun limits text => ?_⟩
  have hentry : ∀ c, Cursor.open? limits text = .ok c → c.Bounded ∧ c.left ≤ text.utf8ByteSize := by
    intro c hopen
    have hc := Cursor.valid_of_open? hopen
    obtain rfl := Cursor.eq_entry_of_open? hopen
    exact ⟨hc.bounded, Nat.sub_le _ _⟩
  refine ⟨fun levels hlevels => ?_, ?_⟩
  · have hsame : ∀ c, Cursor.open? limits text = .ok c → Rule.literalWithin .standard levels c = Rule.literal .standard c ∧
        Rule.typeRefWithin .standard levels c = Rule.typeRef .standard c := fun c hopen =>
      (hentry c hopen).1.levels levels (by have := (hentry c hopen).2; omega)
    exact ⟨Rule.parse_congr fun c hopen => (hsame c hopen).1, Rule.parse_congr fun c hopen => (hsame c hopen).2⟩
  · unfold Document.read
    cases hopen : Cursor.open? limits text with
    | error err => exact Nat.le_max_left _ _
    | ok c =>
      obtain ⟨hbounded, hleft⟩ := hentry c hopen
      have hrounds := hbounded.definitions
      rw [hbounded.rounds] at hrounds
      show (Rule.collect _ _ c).1.length + 1 ≤ _
      omega

/-- A list that is not closed breaks off behind the list in it, by the largest limit of brackets that there is. -/
theorem rules_progress_open_list :
    (Cursor.start "[[1] x" 18446744073709551615).Valid ∧
      Rule.literal .standard (.start "[[1] x" 18446744073709551615) = .error (.mismatch 5 ⟨1, 6⟩ (.one "']'")) ∧
      AnyStarts Rule.Kind.literal.firsts "[[1] x".toList ∧
      Rule.rounds (do Rule.token .comma; Rule.Kind.literal.rule) (.start "[[1] x" 18446744073709551615) ≤ 6 ∧
      "[[1] x".utf8ByteSize < 7 ∧ Value.parse ⟨64, 18446744073709551615⟩ "[[1] x" = .error (.mismatch 5 ⟨1, 6⟩ (.one "']'")) := by
  have hvalid := Cursor.valid_start "[[1] x" 18446744073709551615
  obtain ⟨hrules, hparse⟩ := rules_progress
  obtain ⟨hprogress, hbounded⟩ := hrules hvalid
  have hfails : Rule.literal .standard (.start "[[1] x" 18446744073709551615) = .error (.mismatch 5 ⟨1, 6⟩ (.one "']'")) :=
    (hbounded.levels 7 (by decide)).1.symm.trans (by with_unfolding_all rfl)
  have hstarts := not_congr ((hprogress .literal).mismatch hfails).2
  rw [Classical.not_not] at hstarts
  refine ⟨hvalid, hfails, hstarts.mp (by decide), hbounded.rows .literal, by decide, ?_⟩
  exact ((hparse ⟨64, 18446744073709551615⟩ "[[1] x").1 7 (by decide)).1.symm.trans (by with_unfolding_all rfl)

end RequestDoc

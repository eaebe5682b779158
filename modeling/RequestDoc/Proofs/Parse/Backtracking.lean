import RequestDoc.Proofs.Rule.Commit.Grammar
import RequestDoc.Proofs.Rule.Whole

/-!
Whole texts with backtracking. Committing to a form changes no literal and no type reference, and no limit that
a parse runs into. It changes one thing: a definition that breaks off ends the parse, while with backtracking
the definitions before it are the document and the rest of the text is ignored.
-/

namespace RequestDoc

variable {α : Type} {s t : Strategy} {limits : Limits} {text : String} {err : ParseError}

/-- The outcomes accept the same, as the same, and run into the same limits. -/
structure Agree (first second : Except ParseError α) : Prop where
  accepts (a : α) : first = .ok a ↔ second = .ok a
  limits (err : ParseError) : err.isMismatch = false → (first = .error err ↔ second = .error err)

theorem Rule.Alike.agree {first second : Except ParseError α} (h : Alike first second) : Agree first second := by
  cases h with
  | same => exact ⟨fun _ => Iff.rfl, fun _ _ => Iff.rfl⟩
  | mismatch he he' =>
    refine ⟨fun a => ⟨(nomatch ·), (nomatch ·)⟩, fun err hm => ⟨?_, ?_⟩⟩
    · rintro ⟨⟩
      rw [hm] at he
      cases he
    · rintro ⟨⟩
      rw [hm] at he'
      cases he'

theorem Cursor.isMismatch_of_open? (h : open? limits text = .error err) : err.isMismatch = false := by
  unfold open? Limits.checkSize at h
  split at h
  · cases h
  next hcheck =>
    obtain rfl := Except.error.inj h
    split at hcheck
    · obtain rfl := Except.error.inj hcheck
      rfl
    · cases hcheck

theorem Rule.alike_parse {rule rule' : Rule α} (h : ∀ {c}, c.Valid → Alike (rule c) (rule' c)) :
    Alike (rule.parse limits text) (rule'.parse limits text) := by
  unfold Rule.parse
  cases ho : Cursor.open? limits text with
  | error err => exact .same _
  | ok c =>
    show Alike (Except.bind (rule c) _) (Except.bind (rule' c) _)
    have hrule := h (Cursor.valid_of_open? ho)
    generalize rule c = outcome at hrule
    generalize rule' c = outcome' at hrule
    cases hrule with
    | same => exact .same _
    | mismatch he he' => exact .mismatch he he'

/-- A document is read alike up to the first definition that breaks off. -/
theorem Document.read_alike (hs : s.Relaxes t) {ds : List Definition} {out : Except ParseError Cursor}
    (h : read s limits text = (ds, out)) :
    (read t limits text = (ds, out) ∧ ∀ err, out = .error err → err.isMismatch = false) ∨
      ∃ c d err, Cursor.open? limits text = .ok c ∧ Rule.Run (Rule.definition s) c ds d ∧
        Rule.definition s d = .error err ∧ err.isMismatch = true ∧ out = .error err ∧
        read t limits text = (ds, .ok d) := by
  unfold read at h ⊢
  cases ho : Cursor.open? limits text with
  | error err =>
    rw [ho] at h
    obtain ⟨rfl, rfl⟩ := Prod.mk.inj h
    refine Or.inl ⟨rfl, ?_⟩
    rintro _ ⟨⟩
    exact Cursor.isMismatch_of_open? ho
  | ok c =>
    rw [ho] at h
    have hv := Cursor.valid_of_open? ho
    rcases Rule.collect_alike hs (Rule.moves_definition s) (Rule.alike_definition hs) hv h with
      hsame | ⟨d, err, rfl, he, hrun, herr, heq⟩
    · exact Or.inl hsame
    · exact Or.inr ⟨c, d, err, rfl, hrun, herr, he, rfl, heq⟩

/-- Committing to a form loses no value and no type, and no limit that a parse runs into. Where it refuses a document
as a mismatch, backtracking accepts the definitions in front of the one that breaks off. -/
theorem parse_agrees_with_backtracking (limits : Limits) (text : String) :
    Agree (Value.parse limits text) (Value.parseBy .backtracking limits text) ∧
    Agree (TypeRef.parse limits text) (TypeRef.parseBy .backtracking limits text) ∧
    (∀ doc, Document.parse limits text = .ok doc → Document.parseBy .backtracking limits text = .ok doc) ∧
    (∀ err, err.isMismatch = false → Document.parse limits text = .error err →
      Document.parseBy .backtracking limits text = .error err) ∧
    (∀ err, err.isMismatch = true → Document.parse limits text = .error err →
      ∃ ds c d, Cursor.open? limits text = .ok c ∧ Rule.Run (Rule.definition .standard) c ds d ∧
        Rule.definition .standard d = .error err ∧
        Document.parseBy .backtracking limits text = .ok (.ofDefinitions ds)) := by
  have hs := Strategy.relaxes_backtracking
  refine ⟨(Rule.alike_parse (Rule.alike_literal hs)).agree, (Rule.alike_parse (Rule.alike_typeRef hs)).agree, ?_⟩
  unfold Document.parse Document.parseBy
  cases hread : Document.read .standard limits text with
  | mk ds out =>
    rcases Document.read_alike hs hread with ⟨heq, hlimit⟩ | ⟨c, d, err, hopen, hrun, herr, he, rfl, heq⟩
    · rw [heq]
      refine ⟨fun _ h => h, fun _ _ h => h, fun err he h => ?_⟩
      cases out with
      | ok d => cases h
      | error err' =>
        obtain rfl := Except.error.inj h
        rw [hlimit err' rfl] at he
        cases he
    · rw [heq]
      refine ⟨fun _ h => (nomatch h), fun err' he' h => ?_, fun err' _ h => ?_⟩
      · obtain rfl := Except.error.inj h
        rw [he] at he'
        cases he'
      · obtain rfl := Except.error.inj h
        exact ⟨ds, c, d, hopen, hrun, herr, rfl⟩

/-- The first query is read before the second one breaks off. -/
theorem backtracking_query_query :
    Document.parse ⟨64, 64⟩ "{a} query (" = .error (.mismatch 10 ⟨1, 11⟩ (.one "identifier")) ∧
      ∃ ds c d, Cursor.open? ⟨64, 64⟩ "{a} query (" = .ok c ∧ Rule.Run (Rule.definition .standard) c ds d ∧
        Rule.definition .standard d = .error (.mismatch 10 ⟨1, 11⟩ (.one "identifier")) ∧
        Document.parseBy .backtracking ⟨64, 64⟩ "{a} query (" = .ok (.ofDefinitions ds) := by
  have hfails : Document.parse ⟨64, 64⟩ "{a} query (" = .error (.mismatch 10 ⟨1, 11⟩ (.one "identifier")) := by
    with_unfolding_all rfl
  obtain ⟨-, -, -, -, hmismatch⟩ := parse_agrees_with_backtracking ⟨64, 64⟩ "{a} query ("
  exact ⟨hfails, hmismatch _ rfl hfails⟩

end RequestDoc

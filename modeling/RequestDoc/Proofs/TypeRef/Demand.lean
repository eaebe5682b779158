import RequestDoc.Proofs.Rule.Demand
import RequestDoc.Proofs.Rule.Levels
import RequestDoc.Proofs.Document.Brackets

/-!
Where a type is due in a type reference. A type is due at the start of a reference and behind every bracket, since a list
has exactly one item. An error of a reference asks for a type exactly where one is due in this sense and does not start.
-/

namespace RequestDoc

open Grammar Nesting

variable {c d : Cursor} {demand : Demand} {due : List Char}

namespace Grammar

/-- Behind the text, which is the start of a reference, a type is due. -/
inductive DueInReference : Demand → List Char → Prop where
  | start : DueInReference .type []
  | item {demand : Demand} {left inner : List Char} :
      Punctuation .openBracket left → DueInReference demand inner → DueInReference demand (left ++ inner)

theorem flush_dueInReference (h : DueInReference demand due) {rest : List Char} (hrest : Flush rest) : Flush (due ++ rest) := by
  cases h with
  | start => exact hrest
  | item hl _ =>
    rw [List.append_assoc]
    exact (apart_punctuation rfl hl _).flush

end Grammar

namespace Rule

/-! ### What the errors of a reference ask for -/

theorem asks_typeForm {item : Rule TypeRef} (hm : item.Moves)
    (h : ∀ {d : Cursor}, Flush d.rest → item.Asks d DueInReference) (f : TypeForm) :
    (typeForm item f).Asks c DueInReference := by
  have hmark {e Due} {build : Bool → TypeRef} :
      (do let required ← tokenIf .bang; return build required : Rule TypeRef).Asks e Due :=
    (asks_tokenIf .bang).bind (moves_tokenIf .bang) fun _ _ => asks_pure _
  cases f with
  | named => exact asks_name_bind fun _ _ _ => hmark
  | list =>
    refine asks_token_bind fun {c1 left} _ hl h1 hflush => Asks.nested (Asks.bind (fun err herr => ?_) hm fun _ _ => ?_)
    · have hflush' : Flush (c1.withDepth (c1.depth + 1)).rest := hflush
      exact (h hflush' err herr).mono fun hdue _ => .item hl hdue
    · exact asks_token_bind fun _ _ _ _ => hmark

theorem asks_typeRefWithin {levels : Nat} (hflush : Flush c.rest) : (typeRefWithin .standard levels).Asks c DueInReference := by
  induction levels generalizing c with
  | zero =>
    rintro _ ⟨⟩
    exact .tooDeep _ _
  | succ levels ih =>
    intro err herr
    have htold : ∀ f : TypeForm, Told f.firsts (typeForm (typeRefWithin .standard levels) f) := by
      intro f
      rw [← Script.run_typeRefWithin, ← Script.run_typeForm (s := .standard)]
      exact told_typeForm _ f
    by_cases hstarts : AnyStarts Demand.type.firsts c.rest
    · have hsome : AnyStarts (Strategy.standard.typeForms.flatMap TypeForm.firsts) c.rest := hstarts
      obtain ⟨f, -, hform, -⟩ := form_of_choice_eq_error Strategy.committed_standard htold hsome herr
      exact asks_typeForm (moves_typeRefWithin .standard levels) ih f err hform
    · have hnone := typeForms_of_not_starts hstarts (typeRefWithin .standard levels)
      obtain rfl := Except.error.inj (hnone.symm.trans herr)
      exact .due .start (.refl c) hflush hstarts

theorem asks_typeRef (hflush : Flush c.rest) : (typeRef .standard).Asks c DueInReference :=
  fun err herr => asks_typeRefWithin hflush err herr

/-! ### Where a type is due and does not start -/

theorem typeRef_of_form {s : Strategy} (hs : s.Thorough) (hc : c.Valid) {f : TypeForm} {x : Char} (hx : c.rest.head? = some x)
    (hf : f.StartsWith x) {outcome : Except ParseError (TypeRef × Cursor)} (h : typeForm (typeRef s) f c = outcome)
    (hfin : Final s.retry c outcome) : typeRef s c = outcome := by
  rw [typeRef_eq_choice hc]
  refine choice_of_form hs (hs.typeForms f) h hfin fun g hg => refuses_typeForm (fun y hy hyg => hg ?_) _
  obtain rfl : x = y := Option.some.inj (hx.symm.trans hy)
  exact TypeForm.eq_of_startsWith hyg hf

/-- Where brackets have room and a type is due and does not start, a reference fails and asks for it. -/
theorem typeRef_of_due (h : DueInReference demand due) (hr : c.Reads due d) (hd : Flush d.rest)
    (hnone : ¬AnyStarts demand.firsts d.rest) (hv : c.Valid) (hroom : c.Roomy) :
    typeRef .standard c = .error (.mismatch d.offset d.position demand.expected) := by
  induction h generalizing c d with
  | start =>
    obtain rfl := hr.unique (.refl c)
    rw [typeRef_eq_choice hv]
    exact typeForms_of_not_starts hnone _
  | @item demand left inner hl hdue ih =>
    have hfails := failsAt_behind hr (ne_nil_of_mark hl _) demand.expected
    have hx : c.rest.head? = some '[' := by
      rw [hr.rest, List.append_assoc]
      exact head?_punctuation hl _
    obtain ⟨c1, h1, h2⟩ := hr.split
    obtain ⟨hlt, hroom1⟩ := roomy_behind_mark hl h1 hroom
    have hflush : Flush c1.rest := h2.rest ▸ flush_dueInReference hdue hd
    have herr := ih (h2.withDepth (c1.depth + 1)) hd hnone ((h1.valid hv).withDepth _) hroom1
    refine typeRef_of_form Strategy.thorough_standard hv hx (f := .list) rfl ?_ (final_error hfails)
    refine bind_eq_error.mpr (Or.inr ⟨(), c1, token_of_mark rfl hl h1 hflush, nested_eq_error.mpr (Or.inr ⟨hlt, ?_⟩)⟩)
    exact bind_eq_error.mpr (Or.inl herr)

/-- Where brackets have room, a text that writes a reference is read as that reference. -/
theorem typeRef_of_roomy {s : Strategy} (hs : s.Thorough) {t : TypeRef} {text : List Char} (h : Reference text t) (hroom : c.Roomy)
    (hr : c.Reads text d) (hd : Apart d.rest) (hbang : d.rest.head? ≠ some '!') : typeRef s c = .ok (t, d) := by
  have hlength := hroom.le hr
  have hlevels := deepest_le_length text
  rw [(closed_reference h).deepest_eq] at hlevels
  exact typeRef_of_reference hs h (by omega) hr hd hbang

end Rule

end RequestDoc

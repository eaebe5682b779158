import RequestDoc.Proofs.Literal.Complete
import RequestDoc.Proofs.Literal.Sound
import RequestDoc.Proofs.Rule.Demand
import RequestDoc.Proofs.Rule.Levels

/-!
Where a value is due in a literal. A value is due at the start of a literal, behind the bracket of a list or the commas
in it, and behind the colon of a member. A list may be empty, so right behind its bracket its first item is not due
itself, but something may be due inside that item. An error of a literal asks for a value exactly where one is due in
this sense and does not start.
-/

namespace RequestDoc

open Grammar

variable {α β : Type} {c d : Cursor} {demand : Demand} {due : List Char}

namespace Grammar

/-- The text writes a member of an object. -/
def IsMember (text : List Char) : Prop :=
  ∃ m : Member, m.text = text ∧ Key m.keyText m.key ∧ Punctuation .colon m.colon ∧ Literal m.valueText m.value

/-- Behind the text, which is the start of a literal, a value is due. -/
inductive DueInLiteral : Demand → List Char → Prop where
  | start : DueInLiteral .value []
  | item {demand : Demand} {left row inner : List Char} :
      Punctuation .openBracket left → CommaEnded (fun text => ∃ v, Literal text v) row → DueInLiteral demand inner →
      (row = [] → inner ≠ []) → DueInLiteral demand (left ++ (row ++ inner))
  | value {demand : Demand} {left row keyText colon inner : List Char} {key : String} :
      Punctuation .openBrace left → CommaEnded IsMember row → Key keyText key → Punctuation .colon colon →
      DueInLiteral demand inner → DueInLiteral demand (left ++ (row ++ (keyText ++ (colon ++ inner))))

/-- Behind a list of one item and a comma a value is due. -/
example : DueInLiteral .value "[null, ".toList :=
  .item (.self ['[']) (.more ⟨.null, .null (.self _)⟩ ⟨[' '], by decide, rfl⟩ .none) .start (fun h => nomatch h)

theorem flush_dueInLiteral (h : DueInLiteral demand due) {rest : List Char} (hrest : Flush rest) : Flush (due ++ rest) := by
  cases h with
  | start => exact hrest
  | item hl _ _ _ =>
    rw [List.append_assoc]
    exact (apart_punctuation rfl hl _).flush
  | value hl _ _ _ _ =>
    rw [List.append_assoc]
    exact (apart_punctuation rfl hl _).flush

theorem flush_isMember {text rest : List Char} (h : IsMember text) : Flush (text ++ rest) := by
  obtain ⟨m, rfl, hkey, -⟩ := h
  exact flush_member hkey rest

end Grammar

namespace Rule

/-! ### What the errors of a literal ask for -/

/-- The value of a member is due behind its colon. -/
theorem asks_member {value : Rule Value} {Due : Demand → List Char → Prop} (hm : value.Moves)
    (h : ∀ {keyText key colon d}, Key keyText key → Punctuation .colon colon → c.Reads (keyText ++ colon) d → Flush d.rest →
      value.Asks d fun demand read => Due demand (keyText ++ (colon ++ read))) : (member value).Asks c Due := by
  refine (asks_lexeme _).bind moves_quoted fun {key c1 keyText} hkey h1 => asks_token_bind fun {c2 colon} _ hcs h2 hflush => ?_
  obtain ⟨raw, hraw, hp⟩ := Lexeme.quoted_eq_ok (lexeme_eq_ok.mp hkey)
  obtain ⟨keyText', hks, h1', -⟩ := hp.reads
  obtain rfl := h1.text_unique h1'
  exact (h ⟨raw, hraw, hks⟩ hcs (h1.trans h2) hflush).bind hm fun _ _ => asks_pure _

theorem asks_literalForm {value : Rule Value} (hm : value.Moves)
    (hread : ∀ {c d v}, value c = .ok (v, d) → ReadsLiteral c v d)
    (h : ∀ {d : Cursor}, d.Valid → Flush d.rest → value.Asks d DueInLiteral) (hc : c.Valid) (f : LiteralForm) :
    (literalForm .standard value f).Asks c DueInLiteral := by
  have hs := Strategy.committed_standard
  cases f with
  | number => exact (asks_lexeme _).bind moves_number fun _ _ => asks_pure _
  | boolean b => exact (asks_lexeme _).bind (moves_token _) fun _ _ => asks_pure _
  | null => exact (asks_lexeme _).bind (moves_token _) fun _ _ => asks_pure _
  | list =>
    refine asks_token_bind fun {c1 left} _ hl h1 hflush1 => Asks.nested ?_
    have hvalid := (h1.valid hc).withDepth (c1.depth + 1)
    refine asks_row hs hm hvalid fun {as e text err} hleading hr herr hempty => ?_
    obtain ⟨hrow, hnil⟩ := commaEnded_of_leading (fun text => ∃ v, Literal text v) hm (fun hv hr => by
      obtain ⟨text', hliteral, hr', -⟩ := hread hv
      obtain rfl := hr.text_unique hr'
      exact ⟨_, hliteral⟩) hleading hr
    refine (h (hr.valid hvalid) (flush_of_leading hleading hflush1) err herr).mono fun hdue hstart => ?_
    refine .item hl hrow hdue fun htext hread => ?_
    -- the first item may be missing, so an error at its start is none of the list
    have hfails := hempty (hnil htext)
    rw [hstart hread] at hfails
    cases hfails
  | object =>
    refine asks_token_bind fun {c1 left} _ hl h1 hflush1 => Asks.nested ?_
    have hvalid := (h1.valid hc).withDepth (c1.depth + 1)
    refine asks_row hs hm.member hvalid fun {as e text err} hleading hr herr _ => ?_
    obtain ⟨hrow, -⟩ := commaEnded_of_leading IsMember hm.member (fun hmember hr => by
      obtain ⟨m, ⟨⟨hkey, hcolon⟩, hliteral⟩, -, hr'⟩ := readsLiteral_member hread hmember
      exact ⟨m, (hr.text_unique hr').symm, hkey, hcolon, hliteral⟩) hleading hr
    refine asks_member hm (fun hkey hcolon h2 hflush2 err herr => ?_) err herr
    exact (h (h2.valid (hr.valid hvalid)) hflush2 err herr).mono fun hdue _ => .value hl hrow hkey hcolon hdue

theorem asks_literalWithin {levels : Nat} (hc : c.Valid) (hflush : Flush c.rest) :
    (literalWithin .standard levels).Asks c DueInLiteral := by
  induction levels generalizing c with
  | zero =>
    rintro _ ⟨⟩
    exact .tooDeep _ _
  | succ levels ih =>
    intro err herr
    have hm := moves_literalWithin .standard levels
    have htold : ∀ f : LiteralForm, Told f.firsts (literalForm .standard (literalWithin .standard levels) f) := by
      intro f
      rw [← Script.run_literalWithin, ← Script.run_literalForm]
      exact told_literalForm _ f
    by_cases hstarts : AnyStarts Demand.value.firsts c.rest
    · have hsome : AnyStarts (Strategy.standard.literalForms.flatMap LiteralForm.firsts) c.rest := hstarts
      obtain ⟨f, -, hform, -⟩ := form_of_choice_eq_error Strategy.committed_standard htold hsome herr
      exact asks_literalForm hm readsLiteral_literalWithin ih hc f err hform
    · have hnone := literalForms_of_not_starts hstarts (literalWithin .standard levels)
      obtain rfl := Except.error.inj (hnone.symm.trans herr)
      exact .due .start (.refl c) hflush hstarts

theorem asks_literal (hc : c.Valid) (hflush : Flush c.rest) : (literal .standard).Asks c DueInLiteral :=
  fun err herr => asks_literalWithin hc hflush err herr

/-! ### Where a value is due and does not start -/

theorem literal_of_form {s : Strategy} (hs : s.Thorough) (hc : c.Valid) {f : LiteralForm} {x : Char} (hx : c.rest.head? = some x)
    (hf : f.StartsWith x) {outcome : Except ParseError (Value × Cursor)} (h : literalForm s (literal s) f c = outcome)
    (hfin : Final s.retry c outcome) : literal s c = outcome := by
  rw [literal_eq_choice hc]
  refine choice_of_form hs (hs.literalForms f) h hfin fun g hg => refuses_literalForm (fun y hy hyg => hg ?_) _
  obtain rfl : x = y := Option.some.inj (hx.symm.trans hy)
  exact LiteralForm.eq_of_startsWith hyg hf

theorem member_of_failure {value : Rule Value} {keyText colon : List Char} {key : String} (hkey : Key keyText key)
    (hcolon : Punctuation .colon colon) (h : c.Reads (keyText ++ colon) d) (hd : Flush d.rest) {err : ParseError}
    (herr : value d = .error err) : member value c = .error err := by
  obtain ⟨c1, h1, h2⟩ := h.split
  have hflush : Flush c1.rest := h2.rest ▸ (apart_punctuation rfl hcolon d.rest).flush
  have hread := Lexeme.quoted_of_reads hkey h1 hflush
  have hmark := token_of_mark rfl hcolon h2 hd
  exact bind_eq_error.mpr (Or.inr ⟨key, c1, lexeme_eq_ok.mpr hread,
    bind_eq_error.mpr (Or.inr ⟨(), d, hmark, bind_eq_error.mpr (Or.inl herr)⟩)⟩)

/-- In front of a comma a member is read if its brackets have room. -/
theorem member_of_isMember {s : Strategy} (hs : s.Thorough) {text : List Char} (h : IsMember text) (hv : c.Valid)
    (hroom : c.Roomy) (hr : c.Reads text d) (hcomma : d.rest.head? = some ',') : ∃ a, member (literal s) c = .ok (a, d) := by
  obtain ⟨m, rfl, hkey, hcolon, hliteral⟩ := h
  refine ⟨m.pair, member_of_reads hkey hcolon hr (flush_literal hliteral) fun hbefore hvalue => ?_⟩
  exact literal_of_literal hs hliteral (hbefore.valid hv) (hbefore.roomy hroom) hvalue (apart_of_head hcomma (by decide))

/-- Where brackets have room and a value is due and does not start, a literal fails and asks for it. -/
theorem literal_of_due (h : DueInLiteral demand due) (hr : c.Reads due d) (hd : Flush d.rest)
    (hnone : ¬AnyStarts demand.firsts d.rest) (hv : c.Valid) (hroom : c.Roomy) :
    literal .standard c = .error (.mismatch d.offset d.position demand.expected) := by
  have hs := Strategy.thorough_standard
  have hcommitted := Strategy.committed_standard
  have hm := moves_literal .standard
  induction h generalizing c d with
  | start =>
    obtain rfl := hr.unique (.refl c)
    rw [literal_eq_choice hv]
    exact literalForms_of_not_starts hnone _
  | @item demand left row inner hl hrow hdue hne ih =>
    have hfails := failsAt_behind hr (ne_nil_of_mark hl _) demand.expected
    have hx : c.rest.head? = some '[' := by
      rw [hr.rest, List.append_assoc]
      exact head?_punctuation hl _
    rw [← List.append_assoc] at hr
    obtain ⟨c1, h1, h2⟩ := hr.split
    refine literal_of_form hs hv hx (f := .list) rfl ?_ (final_error hfails)
    have hflush : Flush c1.rest := h2.rest ▸ flush_dueInLiteral hdue hd
    refine bracketed_of_failure hcommitted rfl hm (fun ⟨_, hv⟩ => flush_literal hv _) (fun ⟨v, hliteral⟩ hv hroom hr hcomma => ?_)
      hl hrow h1 hflush hv hroom ?_ fun hnil => failsAt_behind h2 (hne hnil) demand.expected
    · rintro _ rfl hv' hroom'
      have herr := ih (h2.withDepth (c1.depth + 1)) hd hnone hv' hroom'
      exact herr
    · exact ⟨v, literal_of_literal hs hliteral hv hroom hr (apart_of_head hcomma (by decide))⟩
  | @value demand left row keyText colon inner key hl hrow hkey hcolon hdue ih =>
    have hfails := failsAt_behind hr (ne_nil_of_mark hl _) demand.expected
    have hx : c.rest.head? = some '\x7b' := by
      rw [hr.rest, List.append_assoc]
      exact head?_punctuation hl _
    rw [← List.append_assoc, ← List.append_assoc keyText] at hr
    obtain ⟨c1, h1, h23⟩ := hr.split
    obtain ⟨c2, h2, h3⟩ := h23.split
    have hne : keyText ++ colon ++ inner ≠ [] := by
      rw [List.append_assoc]
      exact List.append_ne_nil_of_right_ne_nil _ (ne_nil_of_mark hcolon _)
    have hflush2 : Flush c2.rest := h3.rest ▸ flush_dueInLiteral hdue hd
    have hflush1 : Flush c1.rest := by
      rw [h2.rest, List.append_assoc]
      obtain ⟨raw, -, w, -, rfl⟩ := hkey
      exact flush_cons (by decide)
    refine literal_of_form hs hv hx (f := .object) rfl ?_ (final_error hfails)
    refine bracketed_of_failure hcommitted rfl hm.member flush_isMember (member_of_isMember hs) hl hrow h1 hflush1 hv hroom ?_
      fun _ => failsAt_behind h23 hne demand.expected
    rintro _ rfl hv' hroom'
    have h2' := h2.withDepth (c1.depth + 1)
    have herr := ih (h3.withDepth (c1.depth + 1)) hd hnone (h2'.valid hv') (h2'.roomy hroom')
    exact member_of_failure hkey hcolon h2' hflush2 herr

end Rule

end RequestDoc

import RequestDoc.Proofs.Rule.First.Grammar
import RequestDoc.Proofs.Rule.Leading

/-!
What errors ask for. By the standard strategy an error names a single label, or it names everything that a value or a
type reference can start with, because one of them has to stand at its offset and none starts there. Lexemes name a
single label, every way of putting rules together keeps what their errors ask for, and the labels of several forms are
only put together where a choice has none that starts.
-/

namespace RequestDoc

open Grammar

variable {α β : Type} {s : Strategy} {retry : Retry} {c d : Cursor} {err : ParseError}

/-- What has to stand at a place. -/
inductive Demand where
  | value
  | type
  deriving DecidableEq

/-- What it can start with. -/
def Demand.firsts : Demand → List FirstLexeme
  | value => Rule.Kind.literal.firsts
  | type => Rule.Kind.typeRef.firsts

/-- The labels of an error where it does not start. -/
def Demand.expected : Demand → Expectation
  | value => ⟨["number", "'\x7b'", "'['", "'true'", "'false'", "'null'"]⟩
  | type => ⟨["identifier", "'['"]⟩

/-- An error names a single label, or it comes of a limit, or it stands behind a text behind which something is due that
does not start there. -/
inductive Cursor.Asks (c : Cursor) (Due : Demand → List Char → Prop) : ParseError → Prop where
  | one (offset : Nat) (place : Position) (label : String) : Asks c Due (.mismatch offset place (.one label))
  | due {demand : Demand} {read : List Char} {d : Cursor} :
      Due demand read → c.Reads read d → Flush d.rest → ¬AnyStarts demand.firsts d.rest →
      Asks c Due (.mismatch d.offset d.position demand.expected)
  | tooDeep (limit : Nat) (place : Position) : Asks c Due (.tooDeep limit place)

namespace Cursor.Asks

variable {Due Part : Demand → List Char → Prop}

theorem of_mismatch (m : Mismatch) : c.Asks Due (.ofMismatch m) :=
  .one m.offset m.position m.expected

theorem of_reads {text : List Char} (hr : c.Reads text d) (h : d.Asks (fun demand read => Due demand (text ++ read)) err) :
    c.Asks Due err := by
  cases h with
  | one offset place label => exact .one offset place label
  | due hdue hr' hflush hnone => exact .due hdue (hr.trans hr') hflush hnone
  | tooDeep limit place => exact .tooDeep limit place

theorem of_withDepth {depth : Nat} (h : (c.withDepth depth).Asks Due err) : c.Asks Due err := by
  cases h with
  | one offset place label => exact .one offset place label
  | @due _ _ d hdue hr hflush hnone => exact .due (d := d.withDepth c.depth) hdue hr.of_withDepth hflush hnone
  | tooDeep limit place => exact .tooDeep limit place

/-- What is due behind a text may also depend on whether the error stands at the start of the text. -/
theorem mono (h : c.Asks Part err)
    (hp : ∀ {demand read}, Part demand read → (read = [] → err.failsAt c.offset = true) → Due demand read) : c.Asks Due err := by
  cases h with
  | one offset place label => exact .one offset place label
  | @due demand read d hpart hr hflush hnone =>
    refine .due (hp hpart fun hnil => ?_) hr hflush hnone
    subst hnil
    obtain rfl := hr.unique (.refl c)
    exact beq_self_eq_true d.offset
  | tooDeep limit place => exact .tooDeep limit place

end Cursor.Asks

/-- The text is a row of items with a comma behind each of them. -/
inductive Grammar.CommaEnded (Item : List Char → Prop) : List Char → Prop where
  | none : CommaEnded Item []
  | more {text comma rest : List Char} :
      Item text → Punctuation .comma comma → CommaEnded Item rest → CommaEnded Item (text ++ (comma ++ rest))

namespace Rule

variable {rule : Rule α} {next : α → Rule β} {Due Part : Demand → List Char → Prop}

/-- Every error of the rule at the cursor asks for a single label or for what is due. -/
def Asks (rule : Rule α) (c : Cursor) (Due : Demand → List Char → Prop) : Prop :=
  ∀ err, rule c = .error err → c.Asks Due err

/-! ### Ways of putting rules together -/

theorem asks_lexeme (read : Lexeme α) : (lexeme read).Asks c Due := by
  intro err herr
  obtain ⟨m, -, rfl⟩ := lexeme_eq_error.mp herr
  exact .of_mismatch m

theorem asks_tokenIf (t : Token) : (tokenIf t).Asks c Due := by
  intro err herr
  unfold tokenIf at herr
  split at herr <;> cases herr

theorem asks_pure (a : α) : (pure a : Rule α).Asks c Due :=
  fun _ h => nomatch h

/-- Taking down the place makes no difference. -/
theorem Asks.placed {next : Position → Rule α} (h : (next c.position).Asks c Due) : (position >>= next).Asks c Due :=
  fun err herr => h err herr

theorem Asks.bind (h : rule.Asks c Due) (hm : rule.Moves)
    (hn : ∀ {a d text}, rule c = .ok (a, d) → c.Reads text d → (next a).Asks d fun demand read => Due demand (text ++ read)) :
    (rule >>= next).Asks c Due := by
  intro err herr
  rcases bind_eq_error.mp herr with hr | ⟨a, d, hr, hrest⟩
  · exact h err hr
  · obtain ⟨text, hreads⟩ := hm.reads hr
    exact .of_reads hreads (hn hr hreads err hrest)

/-- A rule that starts with a token. -/
theorem asks_token_bind {t : Token} {next : Unit → Rule β}
    (hn : ∀ {d text}, token t c = .ok ((), d) → Punctuation t text → c.Reads text d → Flush d.rest →
      (next ()).Asks d fun demand read => Due demand (text ++ read)) : (token t >>= next).Asks c Due := by
  refine (asks_lexeme _).bind (moves_token t) fun hr hreads => ?_
  obtain ⟨text, ht, hreads', hflush⟩ := reads_token hr
  obtain rfl := hreads.text_unique hreads'
  exact hn hr ht hreads hflush

/-- A rule that starts with a name. -/
theorem asks_name_bind {next : String → Rule β}
    (hn : ∀ {name d text}, Named text name → c.Reads text d → Flush d.rest →
      (next name).Asks d fun demand read => Due demand (text ++ read)) : (lexeme Lexeme.name >>= next).Asks c Due := by
  refine (asks_lexeme _).bind moves_name fun hr hreads => ?_
  obtain ⟨text, ht, hreads', hflush⟩ := reads_name hr
  obtain rfl := hreads.text_unique hreads'
  exact hn ht hreads hflush

theorem Asks.maybe (h : rule.Asks c Due) : (maybe retry rule).Asks c Due :=
  fun err herr => h err (maybe_eq_error.mp herr).1

theorem Asks.nested (h : rule.Asks (c.withDepth (c.depth + 1)) Due) : (nested rule).Asks c Due := by
  intro err herr
  rcases nested_eq_error.mp herr with ⟨-, rfl⟩ | ⟨-, hr⟩
  · exact .tooDeep _ _
  · exact .of_withDepth (h err hr)

/-- Items with commas in front of a closing token fail at an item, unless they fail at that token. -/
theorem asks_row {item : Rule α} {closing : Token} {build : List α → β} (hs : s.Committed) (hm : item.Moves) (hc : c.Valid)
    (hitem : ∀ {as e text err}, Leading item c as e → c.Reads text e → item e = .error err →
      (as = [] → err.failsAt e.offset = false) → e.Asks (fun demand read => Due demand (text ++ read)) err) :
    (do let items ← sepBy s.retry item (token .comma); token closing; return build items).Asks c Due := by
  refine Asks.bind ?_ hm.sepBy fun _ _ => asks_token_bind fun _ _ _ _ => asks_pure _
  intro err herr
  obtain ⟨as, e, hleading, herr, hretry⟩ := (sepBy_eq_error_iff hs hm hc).mp herr
  obtain ⟨text, hreads⟩ := hm.leading hleading
  exact .of_reads hreads (hitem hleading hreads herr fun has => by rw [← hs]; exact hretry has)

/-- What was read in front of an item is a row of items with a comma behind each of them. -/
theorem commaEnded_of_leading {item : Rule α} (Item : List Char → Prop) (hm : item.Moves)
    (hitem : ∀ {c d a text}, item c = .ok (a, d) → c.Reads text d → Item text) {as : List α} (h : Leading item c as d)
    {text : List Char} (hr : c.Reads text d) : CommaEnded Item text ∧ (text = [] → as = []) := by
  induction h generalizing text with
  | none =>
    obtain rfl := hr.text_unique (.refl _)
    exact ⟨.none, fun _ => rfl⟩
  | @more c e f d a as hread hcomma hmore ih =>
    obtain ⟨first, h1⟩ := hm.reads hread
    obtain ⟨comma, hs, h2, -⟩ := (Lexeme.token_eq_ok hcomma).reads
    have hs : Punctuation .comma comma := hs
    obtain ⟨rest, h3⟩ := hm.leading hmore
    obtain rfl := hr.text_unique (h1.trans (h2.trans h3))
    refine ⟨.more (hitem hread h1) hs (ih h3).1, fun hnil => ?_⟩
    obtain ⟨w, -, rfl⟩ := hs
    simp only [List.append_eq_nil_iff] at hnil
    exact absurd hnil.2.1.1 Token.comma.text_ne_nil

theorem flush_of_leading {item : Rule α} {as : List α} (h : Leading item c as d) (hc : Flush c.rest) : Flush d.rest := by
  induction h with
  | none => exact hc
  | more _ hcomma _ ih =>
    obtain ⟨_, -, -, hflush⟩ := (Lexeme.token_eq_ok hcomma).reads
    exact ih hflush

theorem flush_commaEnded {Item : List Char → Prop} (hstart : ∀ {text rest}, Item text → Flush (text ++ rest))
    {row : List Char} (h : CommaEnded Item row) {rest : List Char} (hrest : Flush rest) : Flush (row ++ rest) := by
  cases h with
  | none => exact hrest
  | more hitem _ _ =>
    rw [List.append_assoc]
    exact hstart hitem

/-- Where brackets have room, a row of items with a comma behind each of them is read as such. -/
theorem leading_of_commaEnded {item : Rule α} {Item : List Char → Prop}
    (hstart : ∀ {text rest}, Item text → Flush (text ++ rest))
    (hitem : ∀ {c d text}, Item text → c.Valid → c.Roomy → c.Reads text d → d.rest.head? = some ',' → ∃ a, item c = .ok (a, d))
    {row : List Char} (h : CommaEnded Item row) (hr : c.Reads row d) (hd : Flush d.rest) (hv : c.Valid) (hroom : c.Roomy) :
    ∃ as, Leading item c as d ∧ (as = [] → row = []) := by
  induction h generalizing c with
  | none =>
    obtain rfl := hr.unique (.refl c)
    exact ⟨[], .none d, fun _ => rfl⟩
  | more htext hcomma hmore ih =>
    obtain ⟨c1, h1, hr⟩ := hr.split
    obtain ⟨c2, h2, h3⟩ := hr.split
    have hhead : c1.rest.head? = some ',' := h2.rest ▸ head?_punctuation hcomma c2.rest
    have hflush : Flush c2.rest := h3.rest ▸ flush_commaEnded hstart hmore hd
    have h12 := h1.trans h2
    obtain ⟨a, hread⟩ := hitem htext hv hroom h1 hhead
    obtain ⟨as, hleading, -⟩ := ih h3 (h12.valid hv) (h12.roomy hroom)
    exact ⟨a :: as, .more hread (Lexeme.mark_of_reads rfl hcomma h2 hflush) hleading, fun h => nomatch h⟩

/-! ### Where something is due -/

theorem ne_nil_of_mark {t : Token} {mark : List Char} (h : Punctuation t mark) (rest : List Char) : mark ++ rest ≠ [] := by
  obtain ⟨w, -, rfl⟩ := h
  exact List.append_ne_nil_of_left_ne_nil (List.append_ne_nil_of_left_ne_nil t.text_ne_nil w) rest

theorem failsAt_behind {text : List Char} (h : c.Reads text d) (hne : text ≠ []) (expected : Expectation) :
    (ParseError.mismatch d.offset d.position expected).failsAt c.offset = false :=
  Cursor.Meets.failsAt_eq_false (.mismatch expected (.refl d)) h hne

/-- Behind an opening bracket there is room for what it opens. -/
theorem roomy_behind_mark {t : Token} {left : List Char} (hl : Punctuation t left) (h : c.Reads left d) (hroom : c.Roomy) :
    d.depth < d.depthLimit ∧ (d.withDepth (d.depth + 1)).Roomy := by
  obtain ⟨w, -, rfl⟩ := hl
  have hlength := List.length_pos_iff.mpr t.text_ne_nil
  have hle : c.depth + c.rest.length ≤ c.depthLimit := hroom
  rw [h.rest, List.length_append, List.length_append, ← h.depth, ← h.depthLimit] at hle
  refine ⟨by omega, ?_⟩
  show d.depth + 1 + d.rest.length ≤ d.depthLimit
  omega

/-- Where brackets have room, brackets with items fail as the item behind a row of items, if that one has to be there. -/
theorem bracketed_of_failure {s : Strategy} (hs : s.Committed) {opening closing : Token} (hmark : opening.isKeyword = false)
    {item : Rule α} (hm : item.Moves) {build : List α → β} {Item : List Char → Prop}
    (hstart : ∀ {text rest}, Item text → Flush (text ++ rest))
    (hitem : ∀ {c d text}, Item text → c.Valid → c.Roomy → c.Reads text d → d.rest.head? = some ',' → ∃ a, item c = .ok (a, d))
    {left row : List Char} (hl : Punctuation opening left) (hrow : CommaEnded Item row) (hr : c.Reads (left ++ row) d)
    (hd : Flush d.rest) (hv : c.Valid) (hroom : c.Roomy) {err : ParseError}
    (herr : ∀ {e : Cursor}, e = d.withDepth (d.depth + 1) → e.Valid → e.Roomy → item e = .error err)
    (hempty : row = [] → err.failsAt d.offset = false) : bracketed s.retry opening closing item build c = .error err := by
  obtain ⟨c1, h1, h2⟩ := hr.split
  obtain ⟨hlt, hroom1⟩ := roomy_behind_mark hl h1 hroom
  have hv1 := (h1.valid hv).withDepth (c1.depth + 1)
  have h2' := h2.withDepth (c1.depth + 1)
  have hflush : Flush c1.rest := h2.rest ▸ flush_commaEnded hstart hrow hd
  obtain ⟨as, hleading, hnil⟩ := leading_of_commaEnded hstart hitem hrow h2' hd hv1 hroom1
  have herr := herr (by rw [h2.depth]) (h2'.valid hv1) (h2'.roomy hroom1)
  have hitems := (sepBy_eq_error_iff hs hm hv1).mpr
    ⟨as, _, hleading, herr, fun has => (hs err _).trans (hempty (hnil has))⟩
  refine bind_eq_error.mpr (Or.inr ⟨(), c1, token_of_mark hmark hl h1 hflush, nested_eq_error.mpr (Or.inr ⟨hlt, ?_⟩)⟩)
  exact bind_eq_error.mpr (Or.inl hitems)

/-! ### Forms that do not start -/

/-- The labels of forms that were all tried at the same cursor. -/
theorem firstOf_eq_error_of_labels (hs : s.Committed) {ι : Type} {forms : List ι} {form : ι → Rule α} {label : ι → String}
    (h : ∀ f ∈ forms, form f c = .error (.mismatch c.offset c.position (.one (label f)))) (before : Expectation) :
    firstOf s.retry (some (.mismatch c.offset c.position before)) (forms.map form) c =
      .error (.mismatch c.offset c.position ((forms.map label).foldl .add before)) := by
  induction forms generalizing before with
  | nil => rfl
  | cons f forms ih =>
    have hretry : s.retry (.mismatch c.offset c.position (.one (label f))) c.offset = true := by
      rw [hs]
      exact beq_self_eq_true c.offset
    have hmerge : ((ParseError.mismatch c.offset c.position before).merge (.mismatch c.offset c.position (.one (label f)))) =
        .mismatch c.offset c.position (before.add (label f)) := if_pos rfl
    rw [List.map_cons, firstOf, h f List.mem_cons_self]
    simp only [hretry, if_true, Option.map_some, Option.getD_some, hmerge]
    exact ih (fun g hg => h g (List.mem_cons_of_mem f hg)) _

theorem choice_eq_error_of_labels (hs : s.Committed) {ι : Type} {f : ι} {forms : List ι} {form : ι → Rule α}
    (label : ι → String) (h : ∀ g ∈ f :: forms, form g c = .error (.mismatch c.offset c.position (.one (label g)))) :
    choice s.retry ((f :: forms).map form) c =
      .error (.mismatch c.offset c.position ((forms.map label).foldl .add (.one (label f)))) := by
  have hretry : s.retry (.mismatch c.offset c.position (.one (label f))) c.offset = true := by
    rw [hs]
    exact beq_self_eq_true c.offset
  rw [choice, List.map_cons, firstOf, h f List.mem_cons_self]
  simp only [hretry, if_true, Option.map_none, Option.getD_none]
  exact firstOf_eq_error_of_labels hs (fun g hg => h g (List.mem_cons_of_mem f hg)) _

theorem token_of_not_starts {t : Token} (h : ¬AnyStarts [.token t] c.rest) :
    token t c = .error (.mismatch c.offset c.position (.one t.label)) := by
  rw [anyStarts_singleton, FirstLexeme.starts_token_iff] at h
  cases ht : Lexeme.token t c with
  | ok r => exact absurd ⟨r.2, ht⟩ h
  | error m => exact lexeme_eq_error.mpr ⟨m, ht, by rw [Lexeme.token_eq_error ht]; rfl⟩

theorem name_of_not_starts (h : ¬AnyStarts [.name] c.rest) :
    lexeme Lexeme.name c = .error (.mismatch c.offset c.position (.one "identifier")) := by
  obtain ⟨expected, herr⟩ := told_name.refuses h
  obtain ⟨m, hm, heq⟩ := lexeme_eq_error.mp herr
  rw [herr, heq, Lexeme.name_eq_error hm]
  rfl

theorem number_of_not_starts (h : ¬AnyStarts [.number] c.rest) :
    lexeme Lexeme.number c = .error (.mismatch c.offset c.position (.one "number")) := by
  obtain ⟨expected, herr⟩ := told_number.refuses h
  obtain ⟨m, hm, heq⟩ := lexeme_eq_error.mp herr
  rw [herr, heq, Lexeme.number_eq_error hm]
  rfl

/-- What an error names where a literal of the form does not start. -/
def literalLabel : LiteralForm → String
  | .number => "number"
  | .object => Token.openBrace.label
  | .list => Token.openBracket.label
  | .boolean b => (if b then Token.trueWord else .falseWord).label
  | .null => Token.nullWord.label

theorem literalForm_of_not_starts {f : LiteralForm} (h : ¬AnyStarts f.firsts c.rest) (value : Rule Value) :
    literalForm s value f c = .error (.mismatch c.offset c.position (.one (literalLabel f))) := by
  cases f with
  | number => exact bind_of_error (number_of_not_starts h)
  | object => exact bind_of_error (token_of_not_starts h)
  | list => exact bind_of_error (token_of_not_starts h)
  | boolean b => exact bind_of_error (token_of_not_starts h)
  | null => exact bind_of_error (token_of_not_starts h)

/-- Where no value starts, a literal asks for one. -/
theorem literalForms_of_not_starts (h : ¬AnyStarts Demand.value.firsts c.rest) (value : Rule Value) :
    choice Strategy.standard.retry (Strategy.standard.literalForms.map (literalForm .standard value)) c =
      .error (.mismatch c.offset c.position Demand.value.expected) := by
  refine choice_eq_error_of_labels Strategy.committed_standard literalLabel fun f hf =>
    literalForm_of_not_starts (fun ⟨first, hm, hstarts⟩ => h ⟨first, ?_, hstarts⟩) value
  exact List.mem_flatMap.mpr ⟨f, hf, hm⟩

/-- What an error names where a reference of the form does not start. -/
def typeLabel : TypeForm → String
  | .named => "identifier"
  | .list => Token.openBracket.label

theorem typeForm_of_not_starts {f : TypeForm} (h : ¬AnyStarts f.firsts c.rest) (item : Rule TypeRef) :
    typeForm item f c = .error (.mismatch c.offset c.position (.one (typeLabel f))) := by
  cases f with
  | named => exact bind_of_error (name_of_not_starts h)
  | list => exact bind_of_error (token_of_not_starts h)

/-- Where no type starts, a type reference asks for one. -/
theorem typeForms_of_not_starts (h : ¬AnyStarts Demand.type.firsts c.rest) (item : Rule TypeRef) :
    choice Strategy.standard.retry (Strategy.standard.typeForms.map (typeForm item)) c =
      .error (.mismatch c.offset c.position Demand.type.expected) := by
  refine choice_eq_error_of_labels Strategy.committed_standard typeLabel fun f hf =>
    typeForm_of_not_starts (fun ⟨first, hm, hstarts⟩ => h ⟨first, ?_, hstarts⟩) item
  exact List.mem_flatMap.mpr ⟨f, hf, hm⟩

end Rule

end RequestDoc

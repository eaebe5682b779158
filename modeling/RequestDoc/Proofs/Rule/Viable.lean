import RequestDoc.Proofs.Rule.Leading

/-!
Errors behind viable texts. Where a rule expects something else than what stands there, what it read so far is the
start of a whole text: the rule could have gone on. Lexemes that fail where they start keep this, and so does every
way of putting rules together, as long as every start that is read in front of a rule can be made whole by it.
-/

namespace RequestDoc

open Grammar

variable {α β γ : Type} {s : Strategy} {retry : Retry} {c d e : Cursor} {err : ParseError}
  {Whole Part : List Char → Prop}

/-- The error comes of a limit, or something else was expected behind the start of a whole text. -/
inductive Cursor.Viable (c : Cursor) (Whole : List Char → Prop) : ParseError → Prop where
  | mismatch {read rest : List Char} {d : Cursor} (expected : Expectation) :
      c.Reads read d → Whole (read ++ rest) → Viable c Whole (.mismatch d.offset d.position expected)
  | tooDeep (limit : Nat) (place : Position) : Viable c Whole (.tooDeep limit place)

namespace Cursor.Viable

theorem extend (h : c.Viable Part err) (hp : ∀ text, Part text → ∃ rest, Whole (text ++ rest)) : c.Viable Whole err := by
  cases h with
  | mismatch expected hr hpart =>
    obtain ⟨rest, hwhole⟩ := hp _ hpart
    rw [List.append_assoc] at hwhole
    exact .mismatch expected hr hwhole
  | tooDeep limit place => exact .tooDeep limit place

theorem of_reads {text : List Char} (hr : c.Reads text d) (h : d.Viable (fun rest => Whole (text ++ rest)) err) :
    c.Viable Whole err := by
  cases h with
  | mismatch expected hr' hwhole =>
    rw [← List.append_assoc] at hwhole
    exact .mismatch expected (hr.trans hr') hwhole
  | tooDeep limit place => exact .tooDeep limit place

theorem of_withDepth {depth : Nat} (h : (c.withDepth depth).Viable Whole err) : c.Viable Whole err := by
  cases h with
  | @mismatch _ _ d expected hr hwhole => exact .mismatch (d := d.withDepth c.depth) expected hr.of_withDepth hwhole
  | tooDeep limit place => exact .tooDeep limit place

theorem merge (h : c.Viable Whole err) (other : ParseError) : c.Viable Whole (err.merge other) := by
  cases h with
  | mismatch expected hr hwhole =>
    cases other with
    | mismatch offset _ expected' =>
      simp only [ParseError.merge]
      split
      · exact .mismatch _ hr hwhole
      · exact .mismatch expected hr hwhole
    | _ => exact .mismatch expected hr hwhole
  | tooDeep limit place => exact .tooDeep limit place

theorem of_mismatch (label : String) (h : ∃ text, Whole text) : c.Viable Whole (.ofMismatch (c.mismatch label)) := by
  obtain ⟨text, hwhole⟩ := h
  exact .mismatch (.one label) (.refl c) hwhole

end Cursor.Viable

namespace Rule

variable {rule : Rule α} {next : α → Rule β}

/-- Where the rule expects something else, what it read so far is the start of a whole text. -/
def Viable (rule : Rule α) (c : Cursor) (Whole : List Char → Prop) : Prop :=
  ∀ err, rule c = .error err → c.Viable Whole err

theorem Viable.extend (h : rule.Viable c Part) (hp : ∀ text, Part text → ∃ rest, Whole (text ++ rest)) :
    rule.Viable c Whole :=
  fun err herr => (h err herr).extend hp

theorem Viable.mono (h : rule.Viable c Part) (hp : ∀ text, Part text → Whole text) : rule.Viable c Whole :=
  h.extend fun text hpart => ⟨[], by rw [List.append_nil]; exact hp text hpart⟩

/-! ### Lexemes -/

/-- A lexeme that fails where it starts could be followed by anything whole. -/
theorem viable_lexeme {read : Lexeme α} (h : ∀ {m}, read c = .error m → ∃ label, m = c.mismatch label)
    (hwhole : ∃ text, Whole text) : (lexeme read).Viable c Whole := by
  intro err herr
  obtain ⟨m, hm, rfl⟩ := lexeme_eq_error.mp herr
  obtain ⟨label, rfl⟩ := h hm
  exact .of_mismatch label hwhole

theorem viable_token (t : Token) (hwhole : ∃ text, Whole text) : (token t).Viable c Whole :=
  viable_lexeme (fun h => ⟨_, Lexeme.token_eq_error h⟩) hwhole

theorem viable_name (hwhole : ∃ text, Whole text) : (lexeme Lexeme.name).Viable c Whole :=
  viable_lexeme (fun h => ⟨_, Lexeme.name_eq_error h⟩) hwhole

theorem viable_number (hwhole : ∃ text, Whole text) : (lexeme Lexeme.number).Viable c Whole :=
  viable_lexeme (fun h => ⟨_, Lexeme.number_eq_error h⟩) hwhole

theorem viable_tokenIf (t : Token) : (tokenIf t).Viable c Whole := by
  intro err herr
  unfold tokenIf at herr
  split at herr <;> cases herr

theorem viable_pure (a : α) : (pure a : Rule α).Viable c Whole :=
  fun _ h => nomatch h

/-! ### Ways of putting rules together -/

theorem Viable.bind (h : rule.Viable c Whole) (hm : rule.Moves)
    (hn : ∀ {a d text}, rule c = .ok (a, d) → c.Reads text d → (next a).Viable d fun rest => Whole (text ++ rest)) :
    (rule >>= next).Viable c Whole := by
  intro err herr
  rcases bind_eq_error.mp herr with hr | ⟨a, d, hr, hrest⟩
  · exact h err hr
  · obtain ⟨text, hreads⟩ := hm.reads hr
    exact .of_reads hreads (hn hr hreads err hrest)

/-- A rule that starts with a token. -/
theorem viable_token_bind {t : Token} {next : Unit → Rule β} (hwhole : ∃ text, Whole text)
    (hn : ∀ {d text}, token t c = .ok ((), d) → Punctuation t text → c.Reads text d → Flush d.rest →
      (next ()).Viable d fun rest => Whole (text ++ rest)) : (token t >>= next).Viable c Whole := by
  refine (viable_token t hwhole).bind (moves_token t) fun hr hreads => ?_
  obtain ⟨text, ht, hreads', hflush⟩ := reads_token hr
  obtain rfl := hreads.text_unique hreads'
  exact hn hr ht hreads hflush

/-- A rule that starts with a name. -/
theorem viable_name_bind {next : String → Rule β} (hwhole : ∃ text, Whole text)
    (hn : ∀ {name d text}, Named text name → c.Reads text d → Flush d.rest →
      (next name).Viable d fun rest => Whole (text ++ rest)) : (lexeme Lexeme.name >>= next).Viable c Whole := by
  refine (viable_name hwhole).bind moves_name fun hr hreads => ?_
  obtain ⟨text, ht, hreads', hflush⟩ := reads_name hr
  obtain rfl := hreads.text_unique hreads'
  exact hn ht hreads hflush

theorem viable_choice {rules : List (Rule α)} (h : ∀ rule ∈ rules, rule.Viable c Whole) (hwhole : ∃ text, Whole text) :
    (choice retry rules).Viable c Whole :=
  fun _ => of_choice_eq_error (fun rule hm => h rule hm) (fun hv _ => hv.merge _) (.of_mismatch _ hwhole)

theorem Viable.maybe (h : rule.Viable c Whole) : (maybe retry rule).Viable c Whole :=
  fun err herr => h err (maybe_eq_error.mp herr).1

theorem Viable.nested (h : c.depth < c.depthLimit → rule.Viable (c.withDepth (c.depth + 1)) Whole) :
    (nested rule).Viable c Whole := by
  intro err herr
  rcases nested_eq_error.mp herr with ⟨-, rfl⟩ | ⟨hlt, hr⟩
  · exact .tooDeep _ _
  · exact .of_withDepth (h hlt err hr)

/-! ### Items with commas -/

variable {item : Rule α}

/-- A row of items ends with one of them, or it is empty. -/
theorem leading_of_items {as : List α} (h : Items item c as d) :
    (as = [] ∧ d = c) ∨ ∃ front last e, as = front ++ [last] ∧ Leading item c front e ∧ item e = .ok (last, d) := by
  induction h with
  | none => exact Or.inl ⟨rfl, rfl⟩
  | @one c _ a hr => exact Or.inr ⟨[], a, c, rfl, .none c, hr⟩
  | @more _ _ _ _ a _ _ hr hcomma _ ih =>
    rcases ih with ⟨hnil, -⟩ | ⟨front, last, e, happ, hleading, hlast⟩
    · cases hnil
    · exact Or.inr ⟨a :: front, last, e, by rw [happ, List.cons_append], .more hr hcomma hleading, hlast⟩

/-- Items with commas in front of a closing token, if every row that ends with an item or the start of one can be closed. -/
theorem viable_row (Row : List Char → Prop) (hs : s.Committed) (hm : item.Moves) (hc : c.Valid) {closing : Token}
    {build : List α → β} (hclose : ∀ {inner}, Row inner → Whole (inner ++ closing.text.toList)) (hnone : Row [])
    (hviable : ∀ {as e text}, Leading item c as e → c.Reads text e → item.Viable e fun rest => Row (text ++ rest))
    (hitem : ∀ {as e text a f read}, Leading item c as e → c.Reads text e → item e = .ok (a, f) → e.Reads read f →
      Row (text ++ read)) :
    (do let items ← sepBy s.retry item (token .comma); token closing; return build items).Viable c Whole := by
  refine Viable.bind ?_ hm.sepBy fun hitems hreads => viable_token_bind ?_ fun _ _ _ _ => viable_pure _
  · intro err herr
    obtain ⟨as, e, hleading, herr, -⟩ := (sepBy_eq_error_iff hs hm hc).mp herr
    obtain ⟨text, hreads⟩ := hm.leading hleading
    exact (Cursor.Viable.of_reads hreads (hviable hleading hreads err herr)).extend fun _ hrow => ⟨_, hclose hrow⟩
  · refine ⟨_, hclose ?_⟩
    rcases leading_of_items (sepBy_eq_ok hitems) with ⟨rfl, rfl⟩ | ⟨front, last, e, rfl, hleading, hlast⟩
    · rwa [hreads.text_unique (.refl _)]
    · obtain ⟨text, h1⟩ := hm.leading hleading
      obtain ⟨read, h2⟩ := hm.reads hlast
      rw [hreads.text_unique (h1.trans h2)]
      exact hitem hleading h1 hlast h2

end Rule

end RequestDoc

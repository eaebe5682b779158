import RequestDoc.Proofs.Rule.Dispatch

/-!
The commit rule against backtracking. A strategy that goes on only after a mismatch at the start of a form is
compared with one that goes on after every mismatch. For rules put together from alike rules both come to the
same outcome or to a mismatch each: behind a mismatch that is not at the start of a form, the strategy that does
not commit finds no other form, and what follows an optional part or a row of items is not there either.
-/

namespace RequestDoc

variable {α β : Type} {s t : Strategy} {c d e : Cursor} {err : ParseError}

/-- The strategy goes on after every mismatch. -/
def Strategy.Lenient (s : Strategy) : Prop :=
  ∀ err start, s.retry err start = err.isMismatch

theorem Strategy.lenient_backtracking : Strategy.backtracking.Lenient :=
  fun _ _ => rfl

theorem Strategy.thorough_backtracking : Strategy.backtracking.Thorough where
  goesOn {err _} h := by
    cases err with
    | mismatch => rfl
    | _ => cases h
  stops := rfl
  literalForms := Strategy.thorough_standard.literalForms
  typeForms := Strategy.thorough_standard.typeForms
  queryForms := Strategy.thorough_standard.queryForms
  definitionForms := Strategy.thorough_standard.definitionForms

theorem ParseError.isMismatch_of_failsAt {start : Nat} (h : err.failsAt start = true) : err.isMismatch = true := by
  cases err with
  | mismatch => rfl
  | _ => cases h

theorem ParseError.isMismatch_merge (h : err.isMismatch = true) (other : ParseError) :
    (err.merge other).isMismatch = true := by
  cases err with
  | mismatch =>
    cases other with
    | mismatch =>
      simp only [merge]
      split <;> rfl
    | _ => rfl
  | _ => cases h

namespace Rule

/-! ### Outcomes -/

/-- The outcomes are the same, or both are mismatches. -/
inductive Alike : Except ParseError α → Except ParseError α → Prop where
  | same (outcome : Except ParseError α) : Alike outcome outcome
  | mismatch {err err' : ParseError} :
      err.isMismatch = true → err'.isMismatch = true → Alike (.error err) (.error err')

theorem Alike.of_ok {r : α} {outcome : Except ParseError α} (h : Alike (.ok r) outcome) : outcome = .ok r := by
  cases h
  rfl

theorem Alike.of_mismatch {outcome : Except ParseError α} (h : Alike (.error err) outcome) (he : err.isMismatch = true) :
    ∃ err', outcome = .error err' ∧ err'.isMismatch = true := by
  cases h with
  | same => exact ⟨err, rfl, he⟩
  | mismatch _ he' => exact ⟨_, rfl, he'⟩

theorem Alike.of_limit {outcome : Except ParseError α} (h : Alike (.error err) outcome) (he : err.isMismatch = false) :
    outcome = .error err := by
  cases h with
  | same => rfl
  | mismatch hm _ =>
    rw [he] at hm
    cases hm

theorem Alike.bind {rule rule' : Rule α} {next next' : α → Rule β} (h : Alike (rule c) (rule' c))
    (hn : ∀ {a d}, rule c = .ok (a, d) → Alike (next a d) (next' a d)) :
    Alike ((rule >>= next) c) ((rule' >>= next') c) := by
  cases hr : rule c with
  | ok r =>
    rw [hr] at h
    rw [bind_of_ok hr, bind_of_ok h.of_ok]
    exact hn hr
  | error err =>
    rw [hr] at h
    rw [bind_of_error hr]
    cases hm : err.isMismatch with
    | true =>
      obtain ⟨err', hr', hm'⟩ := h.of_mismatch hm
      rw [bind_of_error hr']
      exact .mismatch hm hm'
    | false =>
      rw [bind_of_error (h.of_limit hm)]
      exact .same _

theorem Alike.nested {rule rule' : Rule α} (h : Alike (rule (c.withDepth (c.depth + 1))) (rule' (c.withDepth (c.depth + 1)))) :
    Alike (nested rule c) (nested rule' c) := by
  unfold Rule.nested
  split
  · exact .same _
  · generalize rule (c.withDepth (c.depth + 1)) = outcome at h
    generalize rule' (c.withDepth (c.depth + 1)) = outcome' at h
    cases h with
    | same => exact .same _
    | mismatch hm hm' => exact .mismatch hm hm'

/-! ### Choice -/

/-- The rule comes to a mismatch. -/
def Mismatches (rule : Rule α) (c : Cursor) : Prop :=
  ∃ err, rule c = .error err ∧ err.isMismatch = true

theorem mismatch_choice {retry : Retry} {rules : List (Rule α)}
    (h : ∀ rule ∈ rules, rule.Mismatches c) : (choice retry rules).Mismatches c :=
  choice_of_errors h (fun he _ => ParseError.isMismatch_merge he _) rfl

theorem Refuses.mismatch {rule : Rule α} (h : rule.Refuses c) : rule.Mismatches c := by
  obtain ⟨expected, hr⟩ := h
  exact ⟨_, hr, rfl⟩

end Rule

/-- The first strategy goes on only after a mismatch at the start of a form, the second one after every
mismatch. -/
structure Strategy.Relaxes (s t : Strategy) : Prop where
  thorough : s.Thorough
  committed : s.Committed
  thorough' : t.Thorough
  lenient : t.Lenient

theorem Strategy.relaxes_backtracking : Strategy.standard.Relaxes Strategy.backtracking :=
  ⟨thorough_standard, committed_standard, thorough_backtracking, lenient_backtracking⟩

/-- Neither of them goes on after a limit. -/
theorem Strategy.Relaxes.retry_of_limit (h : s.Relaxes t) (he : err.isMismatch = false) (start : Nat) :
    s.retry err start = false ∧ t.retry err start = false := by
  rw [h.committed, h.lenient]
  refine ⟨?_, he⟩
  cases hf : err.failsAt start with
  | true => rw [← he, ParseError.isMismatch_of_failsAt hf]
  | false => rfl

namespace Rule

theorem final_of_not_mismatches (hs : s.Relaxes t) {rule : Rule α} (h : ¬rule.Mismatches c) :
    Final s.retry c (rule c) ∧ Final t.retry c (rule c) := by
  have hlimit : ∀ err, rule c = .error err → err.isMismatch = false := by
    intro err herr
    cases hm : err.isMismatch with
    | true => exact absurd ⟨err, herr, hm⟩ h
    | false => rfl
  exact ⟨fun err herr => (hs.retry_of_limit (hlimit err herr) c.offset).1,
    fun err herr => (hs.retry_of_limit (hlimit err herr) c.offset).2⟩

theorem mismatch_choice_of_forms (retry : Retry) {φ : Type} (forms : List φ) {rule : φ → Rule α}
    (h : ∀ f, (rule f).Mismatches c) : (choice retry (forms.map rule)).Mismatches c := by
  refine mismatch_choice fun r hr => ?_
  obtain ⟨f, -, rfl⟩ := List.mem_map.mp hr
  exact h f

/-- Choices between forms come to alike outcomes if the form that starts at the cursor does by both strategies
and the others refuse. -/
theorem alike_choice (hs : s.Relaxes t) {φ : Type} {forms forms' : List φ} {rule rule' : φ → Rule α}
    (Starts : φ → Prop) (hall : ∀ f, f ∈ forms) (hall' : ∀ f, f ∈ forms')
    (hunique : ∀ {f g}, Starts f → Starts g → f = g) (h : ∀ f, Starts f → Alike (rule f c) (rule' f c))
    (hrefuses : ∀ f, ¬Starts f → (rule f).Refuses c ∧ (rule' f).Refuses c) :
    Alike (choice s.retry (forms.map rule) c) (choice t.retry (forms'.map rule') c) := by
  -- all forms come to mismatches, or one form settles the choice for both strategies
  by_cases hm : ∀ f, (rule f).Mismatches c
  · have hm' : ∀ f, (rule' f).Mismatches c := by
      intro f
      by_cases hf : Starts f
      · obtain ⟨err, hr, he⟩ := hm f
        exact (hr ▸ h f hf).of_mismatch he
      · exact (hrefuses f hf).2.mismatch
    obtain ⟨err, hl, he⟩ := mismatch_choice_of_forms s.retry forms hm
    obtain ⟨err', hl', he'⟩ := mismatch_choice_of_forms t.retry forms' hm'
    rw [hl, hl']
    exact .mismatch he he'
  · obtain ⟨f, hm⟩ := Classical.not_forall.mp hm
    have hf : Starts f := Classical.byContradiction fun hf => hm (hrefuses f hf).1.mismatch
    have hothers : ∀ g, g ≠ f → (rule g).Refuses c ∧ (rule' g).Refuses c :=
      fun g hne => hrefuses g fun hg => hne (hunique hg hf)
    obtain ⟨hfin, hfin'⟩ := final_of_not_mismatches hs hm
    have hsame : rule' f c = rule f c := by
      have hform := h f hf
      generalize ho : rule f c = outcome at hform
      generalize ho' : rule' f c = outcome' at hform
      cases hform with
      | same => rfl
      | mismatch he _ => exact absurd ⟨_, ho, he⟩ hm
    rw [choice_of_form hs.thorough (hall f) rfl hfin fun g hg => (hothers g hg).1,
      choice_of_form hs.thorough' (hall' f) hsame hfin' fun g hg => (hothers g hg).2]
    exact .same _

/-! ### Optional parts -/

/-- Where the strategy that commits fails behind the start of an optional part, what follows has to come to a
mismatch without the part. -/
theorem alike_maybe (hs : s.Relaxes t) {rule rule' : Rule α} {next next' : Option α → Rule β}
    (h : Alike (rule c) (rule' c)) (hsome : ∀ {a d}, rule c = .ok (a, d) → Alike (next (some a) d) (next' (some a) d))
    (hnone : Alike (next none c) (next' none c))
    (hlate : ∀ {err}, rule c = .error err → err.isMismatch = true → err.failsAt c.offset = false →
      (next' none).Mismatches c) :
    Alike ((maybe s.retry rule >>= next) c) ((maybe t.retry rule' >>= next') c) := by
  cases hr : rule c with
  | ok r =>
    obtain ⟨a, d⟩ := r
    rw [hr] at h
    rw [bind_of_ok (maybe_eq_ok.mpr (Or.inl ⟨a, rfl, hr⟩)), bind_of_ok (maybe_eq_ok.mpr (Or.inl ⟨a, rfl, h.of_ok⟩))]
    exact hsome hr
  | error err =>
    rw [hr] at h
    cases hm : err.isMismatch with
    | false =>
      have hr' := h.of_limit hm
      obtain ⟨hretry, hretry'⟩ := hs.retry_of_limit hm c.offset
      rw [bind_of_error (maybe_eq_error.mpr ⟨hr, hretry⟩), bind_of_error (maybe_eq_error.mpr ⟨hr', hretry'⟩)]
      exact .same _
    | true =>
      obtain ⟨err', hr', hm'⟩ := h.of_mismatch hm
      have hyields' : Yields t.retry rule' c := ⟨err', hr', (hs.lenient err' c.offset).trans hm'⟩
      rw [bind_of_ok (maybe_eq_ok.mpr (Or.inr ⟨rfl, rfl, hyields'⟩))]
      cases hf : err.failsAt c.offset with
      | true =>
        have hyields : Yields s.retry rule c := ⟨err, hr, (hs.committed err c.offset).trans hf⟩
        rwa [bind_of_ok (maybe_eq_ok.mpr (Or.inr ⟨rfl, rfl, hyields⟩))]
      | false =>
        -- one strategy gives up behind the start of the part, the other one goes on without it, in vain
        obtain ⟨late, hl, hlm⟩ := hlate hr hm hf
        rw [bind_of_error (maybe_eq_error.mpr ⟨hr, (hs.committed err c.offset).trans hf⟩), hl]
        exact .mismatch hm hlm

/-! ### Repetition -/

theorem run_alike {rule rule' : Rule α} (hm : rule.Moves)
    (hrule : ∀ {c r}, c.Valid → rule c = .ok r → rule' c = .ok r) {as : List α} (hc : c.Valid)
    (h : Run rule c as d) : Run rule' c as d ∧ d.Valid := by
  induction h with
  | nil => exact ⟨.nil _, hc⟩
  | cons hr hlt _ ih =>
    obtain ⟨text, hreads⟩ := hm.reads hr
    obtain ⟨hrun, hd⟩ := ih (hreads.valid hc)
    exact ⟨.cons (hrule hc hr) hlt hrun, hd⟩

/-- Where a repetition that commits ends with a mismatch, the other one ends without an error. Otherwise they
come to the same. -/
theorem collect_alike (hs : s.Relaxes t) {rule rule' : Rule α} (hm : rule.Moves)
    (hrule : ∀ {c}, c.Valid → Alike (rule c) (rule' c)) (hc : c.Valid) {as : List α} {out : Except ParseError Cursor}
    (h : collect s.retry rule c = (as, out)) :
    (collect t.retry rule' c = (as, out) ∧ ∀ err, out = .error err → err.isMismatch = false) ∨
      ∃ d err, out = .error err ∧ err.isMismatch = true ∧ Run rule c as d ∧ rule d = .error err ∧
        collect t.retry rule' c = (as, .ok d) := by
  obtain ⟨as, d, hrun, rfl, hend⟩ := run_of_collectFrom h
  obtain ⟨hrun', hd⟩ := run_alike hm (fun hv hr => (hr ▸ hrule hv).of_ok) hc hrun
  have hstops' : ∀ {err}, rule d = .error err → err.isMismatch = true → Stops t.retry rule' d := by
    intro err hr he
    obtain ⟨err', hr', he'⟩ := (hr ▸ hrule hd).of_mismatch he
    exact Or.inr ⟨err', hr', (hs.lenient err' d.offset).trans he'⟩
  rcases hend with ⟨rfl, ⟨a, e, hr, hstay⟩ | ⟨err, hr, hretry⟩⟩ | ⟨err, rfl, hr, hretry⟩
  · have hstays : Stops t.retry rule' d := Or.inl ⟨a, e, (hr ▸ hrule hd).of_ok, hstay⟩
    exact Or.inl ⟨collect_eq_ok_iff.mpr ⟨hrun', hstays⟩, fun _ h => nomatch h⟩
  · rw [hs.committed] at hretry
    have hyields := hstops' hr (ParseError.isMismatch_of_failsAt hretry)
    exact Or.inl ⟨collect_eq_ok_iff.mpr ⟨hrun', hyields⟩, fun _ h => nomatch h⟩
  · cases he : err.isMismatch with
    | true =>
      exact Or.inr ⟨d, err, rfl, he, hrun, hr, collect_eq_ok_iff.mpr ⟨hrun', hstops' hr he⟩⟩
    | false =>
      have hr' := (hr ▸ hrule hd).of_limit he
      refine Or.inl ⟨collect_eq_error.mpr ⟨d, hrun', hr', (hs.retry_of_limit he d.offset).2⟩, ?_⟩
      rintro _ ⟨⟩
      exact he

/-! ### Rows of items -/

/-- The outcomes of an item are alike, or the strategy that commits failed behind the start of the item and
the other one stopped where neither a comma nor the closing token follows. -/
inductive AlikeItem (closing : Token) (c : Cursor) :
    Except ParseError (α × Cursor) → Except ParseError (α × Cursor) → Prop where
  | alike {outcome outcome' : Except ParseError (α × Cursor)} : Alike outcome outcome' → AlikeItem closing c outcome outcome'
  | stuck {err : ParseError} {a : α} {d : Cursor} : err.isMismatch = true →
      (∀ start, start ≤ c.offset → err.failsAt start = false) → (token .comma).Refuses d → (token closing).Refuses d →
      AlikeItem closing c (.error err) (.ok (a, d))

theorem AlikeItem.of_ok {closing : Token} {r : α × Cursor} {outcome : Except ParseError (α × Cursor)}
    (h : AlikeItem closing c (.ok r) outcome) : outcome = .ok r := by
  cases h with
  | alike h => exact h.of_ok

theorem AlikeItem.of_limit {closing : Token} {outcome : Except ParseError (α × Cursor)}
    (h : AlikeItem closing c (.error err) outcome) (he : err.isMismatch = false) : outcome = .error err := by
  cases h with
  | alike h => exact h.of_limit he
  | stuck hm =>
    rw [he] at hm
    cases hm

/-- Before an item that comes to outcomes of this kind something may be read. -/
theorem AlikeItem.bind {closing : Token} {rule rule' : Rule α} {next next' : α → Rule β} (h : Alike (rule c) (rule' c))
    (hm : rule.Moves) (hn : ∀ {a d}, rule c = .ok (a, d) → AlikeItem closing d (next a d) (next' a d)) :
    AlikeItem closing c ((rule >>= next) c) ((rule' >>= next') c) := by
  cases hr : rule c with
  | error err => exact .alike (h.bind fun hr' => nomatch hr.symm.trans hr')
  | ok r =>
    obtain ⟨a, d⟩ := r
    rw [hr] at h
    rw [bind_of_ok hr, bind_of_ok h.of_ok]
    obtain ⟨text, hreads⟩ := hm.reads hr
    have hitem := hn hr
    generalize next a d = outcome at hitem
    generalize next' a d = outcome' at hitem
    cases hitem with
    | alike h => exact .alike h
    | stuck he hlate hcomma hclosing =>
      exact .stuck he (fun start hstart => hlate start (Nat.le_trans hstart hreads.offset_le)) hcomma hclosing

/-- Items with commas between them, up to a closing token. -/
def row (retry : Retry) (closing : Token) (item : Rule α) (build : List α → β) : Rule β := do
  let items ← sepBy retry item (token .comma)
  token closing
  return build items

/-- What follows the first item of a row. -/
def rowBehind (retry : Retry) (closing : Token) (item : Rule α) (build : List α → β) (first : α) : Rule β := do
  let others ← many retry (do token .comma; item)
  token closing
  return build (first :: others)

theorem row_eq (retry : Retry) (closing : Token) (item : Rule α) (build : List α → β) :
    row retry closing item build = maybe retry item >>= fun
      | none => do token closing; return build []
      | some first => rowBehind retry closing item build first := by
  unfold row sepBy
  rw [bind_assoc]
  congr 1
  funext o
  cases o with
  | none => simp only [pure_bind]
  | some first => simp only [rowBehind, bind_assoc, pure_bind]

/-- The errors of a rule at the closing token of a row are met right there. -/
def Heeds (item : Rule α) (closing : Token) : Prop :=
  ∀ {c : Cursor} {err : ParseError}, c.rest.head? = closing.text.toList.head? → item c = .error err →
    err.isMismatch = true → err.failsAt c.offset = true

theorem Refuses.heeds {item : Rule α} {closing : Token}
    (h : ∀ {c : Cursor}, c.rest.head? = closing.text.toList.head? → item.Refuses c) : item.Heeds closing := by
  intro c err hc herr _
  obtain ⟨expected, hr⟩ := h hc
  obtain rfl := Except.error.inj (herr.symm.trans hr)
  exact beq_self_eq_true c.offset

/-- Behind a comma the strategy that commits has no way back. -/
theorem further_eq_error {item : Rule α} (hm : item.Moves) (h : (do token .comma; item) c = .error err) :
    ((token .comma).Refuses c ∧ err.failsAt c.offset = true) ∨
      ∃ e, token .comma c = .ok ((), e) ∧ item e = .error err ∧ err.failsAt c.offset = false := by
  rcases bind_eq_error.mp h with hcomma | ⟨⟨⟩, e, hcomma, hi⟩
  · obtain ⟨m, ht, rfl⟩ := lexeme_eq_error.mp hcomma
    rw [Lexeme.token_eq_error ht] at hcomma ⊢
    exact Or.inl ⟨⟨_, hcomma⟩, beq_self_eq_true c.offset⟩
  · obtain ⟨comma, ⟨w, -, rfl⟩, hr, -⟩ := reads_token hcomma
    have hne := List.append_ne_nil_of_left_ne_nil Token.comma.text_ne_nil w
    exact Or.inr ⟨e, hcomma, hi, (hm.meets hi).failsAt_eq_false hr hne⟩

theorem mismatches_closing {closing : Token} {a : α} (h : (token closing).Refuses c) :
    (do token closing; return a : Rule α).Mismatches c :=
  (h.bind _).mismatch

theorem mismatches_rowBehind {retry : Retry} {closing : Token} {item : Rule α} {build : List α → β} {first : α}
    {others : List α} (hrun : Run (do token .comma; item) c others d) (hstops : Stops retry (do token .comma; item) d)
    (h : (token closing).Refuses d) : (rowBehind retry closing item build first).Mismatches c := by
  unfold Mismatches rowBehind
  rw [bind_of_ok (many_eq_ok_iff.mpr ⟨hrun, hstops⟩)]
  exact mismatches_closing h

theorem left_lt_of_further {item : Rule α} (hm : item.Moves) {a : α} (hc : c.Valid)
    (h : (do token .comma; item) c = .ok (a, d)) : d.left < c.left := by
  obtain ⟨⟨⟩, e, hcomma, hi⟩ := bind_eq_ok.mp h
  obtain ⟨text, ⟨w, -, rfl⟩, hreads, -⟩ := reads_token hcomma
  obtain ⟨more, hmore⟩ := hm.reads hi
  have hne := List.append_ne_nil_of_left_ne_nil Token.comma.text_ne_nil w
  exact (hreads.trans hmore).left_lt hc (List.append_ne_nil_of_left_ne_nil hne more)

/-- A repetition of further items ends without an error only where no comma follows. -/
theorem refuses_comma_of_stops (hs : s.Committed) {item : Rule α} (hm : item.Moves) (hc : c.Valid)
    (h : Stops s.retry (do token .comma; item) c) : (token .comma).Refuses c := by
  rcases h with ⟨a, d, hr, hstay⟩ | ⟨err, hr, hretry⟩
  · exact absurd (left_lt_of_further hm hc hr) hstay
  · rw [hs] at hretry
    rcases further_eq_error hm hr with ⟨hcomma, -⟩ | ⟨e, -, -, hf⟩
    · exact hcomma
    · rw [hf] at hretry
      cases hretry

theorem further_of_further {closing : Token} {item item' : Rule α}
    (hitem : ∀ {c}, c.Valid → AlikeItem closing c (item c) (item' c)) (hc : c.Valid) {r : α × Cursor}
    (h : (do token .comma; item) c = .ok r) : (do token .comma; item') c = .ok r := by
  obtain ⟨⟨⟩, e, hcomma, hi⟩ := bind_eq_ok.mp h
  obtain ⟨text, -, hreads, -⟩ := reads_token hcomma
  rw [bind_of_ok hcomma]
  exact (hi ▸ hitem (hreads.valid hc)).of_ok

/-- Where an item behind a comma comes to a mismatch, the strategy that does not commit stops at the comma or behind one
more item, and the closing token stands at neither place. -/
theorem mismatches_rowBehind_of_late (hs : s.Relaxes t) {closing : Token} {item : Rule α} {build : List α → β} {first : α}
    {items : List α} (hm : item.Moves) (hclosing : closing.text.toList.head? ≠ some ',')
    (hrun : Run (do token .comma; item) c items d) (hd : d.Valid) (hcomma : token .comma d = .ok ((), e))
    (hitem : AlikeItem closing e (.error err) (item e)) (he : err.isMismatch = true) :
    (rowBehind t.retry closing item build first).Mismatches c := by
  have hfurther : (do token .comma; item) d = item e := bind_of_ok hcomma
  generalize hi : item e = outcome at hitem
  cases hitem with
  | alike h =>
    obtain ⟨err', rfl, he'⟩ := h.of_mismatch he
    refine mismatches_rowBehind hrun (Or.inr ⟨err', hfurther.trans hi, (hs.lenient err' d.offset).trans he'⟩) ?_
    refine refuses_token_of_head ?_
    rw [Lexeme.head?_of_token (token_eq_ok.mp hcomma)]
    exact hclosing.symm
  | stuck _ _ hstop hclose =>
    have hr := hfurther.trans hi
    have hlast := hrun.append (.cons hr (left_lt_of_further hm hd hr) (.nil _))
    exact mismatches_rowBehind hlast (Or.inr ((hstop.bind _).yields hs.thorough')) hclose

theorem alike_rowBehind (hs : s.Relaxes t) {closing : Token} {item item' : Rule α} (build : List α → β) (first : α)
    (hm : item.Moves) (hm' : item'.Moves) (hclosing : closing.text.toList.head? ≠ some ',')
    (hitem : ∀ {c}, c.Valid → AlikeItem closing c (item c) (item' c)) (hc : c.Valid) :
    Alike (rowBehind s.retry closing item build first c) (rowBehind t.retry closing item' build first c) := by
  obtain ⟨as, d, hrun, -, hend⟩ := run_of_collectFrom (rfl : collect s.retry (do token .comma; item) c = (_, _))
  have hfurther {c r} (hv : c.Valid) (hr : (do token .comma; item) c = .ok r) : (do token .comma; item') c = .ok r :=
    further_of_further hitem hv hr
  obtain ⟨hrun', hd⟩ := run_alike ((moves_token _).bind fun _ => hm) hfurther hc hrun
  rcases hend with ⟨-, hstops⟩ | ⟨err, -, herr, hretry⟩
  · have hcomma := refuses_comma_of_stops hs.committed hm hd hstops
    have hstops' : Stops t.retry (do token .comma; item') d := Or.inr ((hcomma.bind _).yields hs.thorough')
    unfold rowBehind
    rw [bind_of_ok (many_eq_ok_iff.mpr ⟨hrun, hstops⟩), bind_of_ok (many_eq_ok_iff.mpr ⟨hrun', hstops'⟩)]
    exact .same _
  · rw [rowBehind, bind_of_error (many_eq_error.mpr ⟨as, d, hrun, herr, hretry⟩)]
    rcases further_eq_error hm herr with ⟨-, hf⟩ | ⟨e, hcomma, hi, -⟩
    · rw [hs.committed, hf] at hretry
      cases hretry
    · obtain ⟨text, -, hreads, -⟩ := reads_token hcomma
      have hboth := hi ▸ hitem (hreads.valid hd)
      cases he : err.isMismatch with
      | true =>
        have hlate : (rowBehind t.retry closing item' build first).Mismatches c :=
          mismatches_rowBehind_of_late hs hm' hclosing hrun' hd hcomma hboth he
        obtain ⟨err', hr', he'⟩ := hlate
        rw [hr']
        exact .mismatch he he'
      | false =>
        have hr : (do token .comma; item') d = .error err := (bind_of_ok hcomma).trans (hboth.of_limit he)
        rw [rowBehind, bind_of_error (many_eq_error.mpr ⟨as, d, hrun', hr, (hs.retry_of_limit he d.offset).2⟩)]
        exact .same _

theorem alike_row (hs : s.Relaxes t) {closing : Token} {item item' : Rule α} (build : List α → β)
    (hm : item.Moves) (hm' : item'.Moves) (hclosing : closing.text.toList.head? ≠ some ',') (hheeds : item.Heeds closing)
    (hitem : ∀ {c}, c.Valid → AlikeItem closing c (item c) (item' c)) (hc : c.Valid) :
    Alike (row s.retry closing item build c) (row t.retry closing item' build c) := by
  rw [row_eq, row_eq]
  have hfirst := hitem hc
  generalize hi : item c = outcome at hfirst
  generalize hi' : item' c = outcome' at hfirst
  cases hfirst with
  | alike h =>
    subst hi hi'
    refine alike_maybe hs h (fun {a d} hr => ?_) (.same _) fun {err} hr he hf => ?_
    · obtain ⟨text, hreads⟩ := hm.reads hr
      exact alike_rowBehind hs build a hm hm' hclosing hitem (hreads.valid hc)
    · -- if the closing token followed, the error would stand at the start of the item
      refine mismatches_closing (refuses_token_of_head fun hhead => ?_)
      rw [hheeds hhead hr he] at hf
      cases hf
  | @stuck err a d he hlate hcomma hclose =>
    rw [bind_of_error (maybe_eq_error.mpr ⟨hi, (hs.committed err c.offset).trans (hlate _ (Nat.le_refl _))⟩),
      bind_of_ok (maybe_eq_ok.mpr (Or.inl ⟨a, rfl, hi'⟩))]
    have hstops : Stops t.retry (do token .comma; item') d := Or.inr ((hcomma.bind _).yields hs.thorough')
    have hlast : (rowBehind t.retry closing item' build a).Mismatches d := mismatches_rowBehind (.nil d) hstops hclose
    obtain ⟨err', hr', he'⟩ := hlast
    show Alike _ (rowBehind t.retry closing item' build a d)
    rw [hr']
    exact .mismatch he he'

end Rule

end RequestDoc

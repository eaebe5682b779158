import RequestDoc.Proofs.Error.Merge
import RequestDoc.Proofs.Rule.Dispatch
import RequestDoc.Proofs.Rule.Script

/-!
Forms in another order. Of two scripts that differ only in the order of forms, each choice between which is settled by at
most one form at any cursor, one comes to what the other comes to, up to the order of the labels of what was expected.
Where a form gets past its start, all others let it be tried, in whatever order they stand; where none does, their
expectations are merged, and none is repeated.
-/

namespace RequestDoc

variable {α β : Type} {retry : Retry} {c d : Cursor} {err : ParseError}

/-- The outcomes are the same up to the order of the labels of a mismatch. -/
inductive SameUpToOrder : Except ParseError α → Except ParseError α → Prop where
  | same (outcome : Except ParseError α) : SameUpToOrder outcome outcome
  | mismatch (offset : Nat) (place : Position) {expected expected' : Expectation} :
      expected.labels.Perm expected'.labels →
      SameUpToOrder (.error (.mismatch offset place expected)) (.error (.mismatch offset place expected'))

namespace SameUpToOrder

theorem of_ok {r : α} {outcome : Except ParseError α} (h : SameUpToOrder (.ok r) outcome) : outcome = .ok r := by
  cases h
  rfl

/-- An error has a counterpart that fails at the same offset. -/
theorem of_error {outcome : Except ParseError α} (h : SameUpToOrder (.error err) outcome) :
    ∃ err', outcome = .error err' ∧ (∀ start, err'.failsAt start = err.failsAt start) ∧
      ∀ {γ : Type}, SameUpToOrder (.error err : Except ParseError γ) (.error err') := by
  cases h with
  | same => exact ⟨err, rfl, fun _ => rfl, .same _⟩
  | mismatch offset place hperm => exact ⟨_, rfl, fun _ => rfl, .mismatch offset place hperm⟩

theorem symm {first second : Except ParseError α} (h : SameUpToOrder first second) : SameUpToOrder second first := by
  cases h with
  | same => exact .same _
  | mismatch offset place hperm => exact .mismatch offset place hperm.symm

theorem map {first second : Except ParseError α} (h : SameUpToOrder first second) (f : α → β) :
    SameUpToOrder (f <$> first) (f <$> second) := by
  cases h with
  | same => exact .same _
  | mismatch offset place hperm => exact .mismatch offset place hperm

end SameUpToOrder

namespace Rule

variable {rule rule' : Rule α}

/-! ### Sequence, repetition and nesting -/

theorem sameUpToOrder_bind {next next' : α → Rule β} (h : SameUpToOrder (rule c) (rule' c))
    (hn : ∀ a d, SameUpToOrder (next a d) (next' a d)) : SameUpToOrder ((rule >>= next) c) ((rule' >>= next') c) := by
  cases hr : rule c with
  | ok r =>
    rw [hr] at h
    rw [bind_of_ok hr, bind_of_ok h.of_ok]
    exact hn r.1 r.2
  | error err =>
    obtain ⟨err', hr', -, hsame⟩ := (hr ▸ h).of_error
    rw [bind_of_error hr, bind_of_error hr']
    exact hsame

section Retry

variable (hretry : ∀ err start, retry err start = err.failsAt start)

include hretry

theorem sameUpToOrder_maybe (h : SameUpToOrder (rule c) (rule' c)) :
    SameUpToOrder (maybe retry rule c) (maybe retry rule' c) := by
  unfold maybe
  cases hr : rule c with
  | ok r =>
    rw [hr] at h
    rw [h.of_ok]
    exact .same _
  | error err =>
    obtain ⟨err', hr', hfails, hsame⟩ := (hr ▸ h).of_error
    rw [hr']
    simp only [hretry, hfails]
    split
    · exact .same _
    · exact hsame

theorem sameUpToOrder_many (h : ∀ c, SameUpToOrder (rule c) (rule' c)) (c : Cursor) :
    SameUpToOrder (many retry rule c) (many retry rule' c) := by
  have hfrom : ∀ items, (collectFrom retry rule items c).1 = (collectFrom retry rule' items c).1 ∧
      SameUpToOrder (collectFrom retry rule items c).2 (collectFrom retry rule' items c).2 := by
    intro items
    fun_induction collectFrom retry rule items c with
    | case1 items c a d hr hlt ih =>
      rw [collectFrom_of_step (hr ▸ h c).of_ok hlt]
      exact ih
    | case2 items c a d hr hlt =>
      rw [collectFrom_of_still (hr ▸ h c).of_ok hlt]
      exact ⟨rfl, .same _⟩
    | case3 items c err hr =>
      obtain ⟨err', hr', hfails, hsame⟩ := (hr ▸ h c).of_error
      rw [collectFrom_of_error hr']
      simp only [hretry, hfails]
      refine ⟨trivial, ?_⟩
      split
      · exact .same _
      · exact hsame
  unfold many collect
  obtain ⟨hitems, hend⟩ := hfrom []
  revert hitems hend
  generalize collectFrom retry rule [] c = found
  generalize collectFrom retry rule' [] c = found'
  obtain ⟨items, out⟩ := found
  obtain ⟨items', out'⟩ := found'
  rintro rfl hend
  cases hend with
  | same => exact .same _
  | mismatch offset place hperm => exact .mismatch offset place hperm

end Retry

theorem sameUpToOrder_nested (h : SameUpToOrder (rule (c.withDepth (c.depth + 1))) (rule' (c.withDepth (c.depth + 1)))) :
    SameUpToOrder (nested rule c) (nested rule' c) := by
  unfold nested
  split
  · exact .same _
  · generalize rule (c.withDepth (c.depth + 1)) = outcome at h
    generalize rule' (c.withDepth (c.depth + 1)) = outcome' at h
    cases h with
    | same => exact .same _
    | mismatch offset place hperm => exact .mismatch offset place hperm

/-! ### Choice -/

/-- The label is among those of what the rule expects at the cursor. -/
def Expects (rule : Rule α) (c : Cursor) (label : String) : Prop :=
  ∃ expected, rule c = .error (.mismatch c.offset c.position expected) ∧ label ∈ expected.labels

/-- The rule repeats no label of what it expects. -/
def Distinct (rule : Rule α) : Prop :=
  ∀ c err, rule c = .error err → err.Distinct

theorem expects_iff {label : String} {expected : Expectation} (h : rule c = .error (.mismatch c.offset c.position expected)) :
    rule.Expects c label ↔ label ∈ expected.labels := by
  constructor
  · rintro ⟨_, hr, hlabel⟩
    obtain ⟨-, -, rfl⟩ := ParseError.mismatch.inj (Except.error.inj (hr.symm.trans h))
    exact hlabel
  · exact fun hlabel => ⟨_, h, hlabel⟩

theorem expects_iff_of_sameUpToOrder (h : SameUpToOrder (rule c) (rule' c)) (label : String) :
    rule.Expects c label ↔ rule'.Expects c label := by
  have himp : ∀ {rule rule' : Rule α}, SameUpToOrder (rule c) (rule' c) → rule.Expects c label → rule'.Expects c label := by
    rintro rule rule' h ⟨expected, hr, hlabel⟩
    rw [hr] at h
    generalize ho : rule' c = outcome at h
    cases h with
    | same => exact ⟨expected, ho, hlabel⟩
    | mismatch _ _ hperm => exact ⟨_, ho, hperm.mem_iff.mp hlabel⟩
  exact ⟨himp h, himp h.symm⟩

theorem refuses_of_sameUpToOrder (h : SameUpToOrder (rule c) (rule' c)) (hr : rule.Refuses c) : rule'.Refuses c := by
  obtain ⟨expected, hr⟩ := hr
  rw [hr] at h
  generalize ho : rule' c = outcome at h
  cases h with
  | same => exact ⟨expected, ho⟩
  | mismatch _ _ _ => exact ⟨_, ho⟩

/-- An error at the start of a rule that moves on is a refusal. -/
theorem Moves.refuses (hm : rule.Moves) (hr : rule c = .error err) (hfails : err.failsAt c.offset = true) : rule.Refuses c := by
  have hmeets := hm.meets hr
  cases hmeets with
  | @mismatch text d expected hreads =>
    have hoffset : d.offset = c.offset := by simpa [ParseError.failsAt] using hfails
    have hlength := length_le_byteSize text
    have hbytes := hreads.offset
    obtain rfl : text = [] := List.length_eq_zero_iff.mp (by omega)
    exact ⟨expected, by rw [hr, hoffset, hreads.position]; rfl⟩
  | tooDeep => cases hfails

section Retry

variable (hretry : ∀ err start, retry err start = err.failsAt start)

include hretry

theorem firstOf_of_refuses {rules : List (Rule α)} (h : ∀ rule ∈ rules, rule.Refuses c) (before : Expectation) :
    ∃ expected, firstOf retry (some (.mismatch c.offset c.position before)) rules c =
        .error (.mismatch c.offset c.position expected) ∧
      (before.labels.Nodup → expected.labels.Nodup) ∧
      ∀ label, label ∈ expected.labels ↔ label ∈ before.labels ∨ ∃ rule ∈ rules, rule.Expects c label := by
  induction rules generalizing before with
  | nil => exact ⟨before, rfl, id, fun label => ⟨Or.inl, fun h => h.elim id fun ⟨_, hm, _⟩ => nomatch hm⟩⟩
  | cons rule rules ih =>
    obtain ⟨hrule, hrules⟩ := List.forall_mem_cons.mp h
    obtain ⟨own, hr⟩ := hrule
    obtain ⟨expected, hfirst, hnodup, hmem⟩ := ih hrules (before.merge own)
    refine ⟨expected, ?_, fun hb => hnodup (Expectation.nodup_merge hb own), fun label => ?_⟩
    · simp only [firstOf, hr, hretry, ParseError.failsAt, beq_self_eq_true, if_true, Option.map_some, Option.getD_some,
        ParseError.merge]
      exact hfirst
    · simp only [hmem, Expectation.mem_merge, List.exists_mem_cons_iff, expects_iff hr, or_assoc]

/-- Where all forms refuse, a choice expects what any of them does. -/
theorem choice_of_refuses {ι : Type} {forms : List ι} {form : ι → Rule α} (hne : forms ≠ [])
    (h : ∀ f ∈ forms, (form f).Refuses c) (hd : ∀ f, (form f).Distinct) :
    ∃ expected, choice retry (forms.map form) c = .error (.mismatch c.offset c.position expected) ∧
      expected.labels.Nodup ∧ ∀ label, label ∈ expected.labels ↔ ∃ f ∈ forms, (form f).Expects c label := by
  obtain ⟨f, fs, rfl⟩ := List.exists_cons_of_ne_nil hne
  obtain ⟨⟨own, hr⟩, hfs⟩ := List.forall_mem_cons.mp h
  obtain ⟨expected, hfirst, hnodup, hmem⟩ := firstOf_of_refuses hretry (List.forall_mem_map.mpr hfs) own
  refine ⟨expected, ?_, hnodup (hd f c _ hr), fun label => ?_⟩
  · simp only [choice, List.map_cons, firstOf, hr, hretry, ParseError.failsAt, beq_self_eq_true, if_true, Option.map_none,
      Option.getD_none]
    exact hfirst
  · simp only [hmem, List.exists_mem_cons_iff, List.mem_map, exists_exists_and_eq_and, expects_iff hr]

/-- A choice comes to what the only form comes to that gets past its start. -/
theorem choice_of_only {ι : Type} {forms : List ι} {form : ι → Rule α} {f : ι} (hf : f ∈ forms) (hm : (form f).Moves)
    (h : ¬(form f).Refuses c) (hothers : ∀ g, g ≠ f → (form g).Refuses c) :
    choice retry (forms.map form) c = form f c := by
  refine choice_of_final (fun err hr => ?_) ⟨_, List.mem_map_of_mem hf, rfl⟩ fun other hmem => ?_
  · rw [hretry, Bool.eq_false_iff]
    exact fun hfails => h (hm.refuses hr hfails)
  · obtain ⟨g, -, rfl⟩ := List.mem_map.mp hmem
    by_cases hg : g = f
    · exact Or.inl (hg ▸ rfl)
    · obtain ⟨expected, hr⟩ := hothers g hg
      exact Or.inr ⟨_, hr, (hretry _ _).trans (beq_self_eq_true c.offset)⟩

theorem sameUpToOrder_choice {ι : Type} {forms forms' : List ι} {form form' : ι → Rule α} (hperm : forms.Perm forms')
    (hm : ∀ f, (form f).Moves) (hm' : ∀ f, (form' f).Moves) (hd : ∀ f, (form f).Distinct) (hd' : ∀ f, (form' f).Distinct)
    (h : ∀ f, SameUpToOrder (form f c) (form' f c)) (hone : ∀ f g, ¬(form f).Refuses c → ¬(form g).Refuses c → f = g) :
    SameUpToOrder (choice retry (forms.map form) c) (choice retry (forms'.map form') c) := by
  -- all forms refuse and their labels are merged, or one form settles both choices
  by_cases hall : ∀ f ∈ forms, (form f).Refuses c
  · by_cases hne : forms = []
    · subst hne
      rw [List.nil_perm.mp hperm]
      exact .same _
    have hne' : forms' ≠ [] := fun hnil => hne (List.perm_nil.mp (hnil ▸ hperm))
    have hall' : ∀ f ∈ forms', (form' f).Refuses c := fun f hf => refuses_of_sameUpToOrder (h f) (hall f (hperm.mem_iff.mpr hf))
    obtain ⟨expected, hr, hnodup, hmem⟩ := choice_of_refuses hretry hne hall hd
    obtain ⟨expected', hr', hnodup', hmem'⟩ := choice_of_refuses hretry hne' hall' hd'
    rw [hr, hr']
    refine .mismatch _ _ ((List.perm_ext_iff_of_nodup hnodup hnodup').mpr fun label => ?_)
    simp only [hmem, hmem', hperm.mem_iff, expects_iff_of_sameUpToOrder (h _)]
  · obtain ⟨f, hall⟩ := Classical.not_forall.mp hall
    obtain ⟨hf, hfirst⟩ := Classical.not_imp.mp hall
    have hothers : ∀ g, g ≠ f → (form g).Refuses c := fun g hg =>
      Classical.byContradiction fun hgets => hg (hone g f hgets hfirst)
    rw [choice_of_only hretry hf (hm f) hfirst hothers,
      choice_of_only hretry (hperm.mem_iff.mp hf) (hm' f) (fun hr => hfirst (refuses_of_sameUpToOrder (h f).symm hr))
        fun g hg => refuses_of_sameUpToOrder (h g) (hothers g hg)]
    exact h f

end Retry

end Rule

/-! ### Scripts -/

namespace Script

/-- The scripts differ only in the order of forms, and at every cursor at most one form of each choice gets past its
start. -/
inductive Reorders (retry : Retry) : {α : Type} → Script α → Script α → Prop where
  | same {α : Type} (x : Script α) : Reorders retry x x
  | bind {α β : Type} {x x' : Script α} {next next' : α → Script β} :
      Reorders retry x x' → (∀ a, Reorders retry (next a) (next' a)) → Reorders retry (bind x next) (bind x' next')
  | choice {ι α : Type} {forms forms' : List ι} {form form' : ι → Script α} :
      forms.Perm forms' → (∀ f, Reorders retry (form f) (form' f)) →
      (∀ c f g, ¬((form f).run retry).Refuses c → ¬((form g).run retry).Refuses c → f = g) →
      Reorders retry (choice forms form) (choice forms' form')
  | maybe {α : Type} {x x' : Script α} : Reorders retry x x' → Reorders retry (maybe x) (maybe x')
  | many {α : Type} {x x' : Script α} : Reorders retry x x' → Reorders retry (many x) (many x')
  | nested {α : Type} {x x' : Script α} : Reorders retry x x' → Reorders retry (nested x) (nested x')
  | levels {α : Type} {x x' : Nat → Script α} :
      (∀ n, Reorders retry (x n) (x' n)) → Reorders retry (levels x) (levels x')

theorem distinct_run (x : Script α) : (x.run retry).Distinct := by
  induction x with
  | lexeme kind =>
    intro c err h
    obtain ⟨m, -, rfl⟩ := Rule.lexeme_eq_error.mp h
    exact Expectation.nodup_one _
  | tokenIf t =>
    intro c err h
    simp only [run, Rule.tokenIf] at h
    split at h <;> cases h
  | position | pure a => exact fun _ _ h => nomatch h
  | tooDeep =>
    rintro c _ ⟨⟩
    trivial
  | bind first next ihFirst ihNext =>
    intro c err h
    rcases Rule.bind_eq_error.mp h with hr | ⟨a, d, -, hn⟩
    · exact ihFirst c err hr
    · exact ihNext a d err hn
  | choice forms form ih =>
    intro c err h
    refine Rule.of_choice_eq_error (fun rule hm err hr => ?_) (fun he _ => he.merge _) (Expectation.nodup_one _) h
    obtain ⟨f, -, rfl⟩ := List.mem_map.mp hm
    exact ih f c err hr
  | maybe script ih => exact fun c err h => ih c err (Rule.maybe_eq_error.mp h).1
  | many script ih =>
    intro c err h
    obtain ⟨_, d, -, hr, -⟩ := Rule.many_eq_error.mp h
    exact ih d err hr
  | nested script ih =>
    intro c err h
    rcases Rule.nested_eq_error.mp h with ⟨-, rfl⟩ | ⟨-, hr⟩
    · trivial
    · exact ih _ err hr
  | levels script ih => exact fun c err h => ih _ c err h

theorem Reorders.run (hretry : ∀ err start, retry err start = err.failsAt start) {x x' : Script α} (h : Reorders retry x x')
    (c : Cursor) : SameUpToOrder (x.run retry c) (x'.run retry c) := by
  induction h generalizing c with
  | same => exact .same _
  | bind _ _ ih ihNext => exact Rule.sameUpToOrder_bind (ih c) ihNext
  | @choice _ _ _ _ form form' hperm _ hone ih =>
    exact Rule.sameUpToOrder_choice hretry hperm (fun f => (form f).moves_run) (fun f => (form' f).moves_run)
      (fun f => (form f).distinct_run) (fun f => (form' f).distinct_run)
      (fun f => ih f c) (hone c)
  | maybe _ ih => exact Rule.sameUpToOrder_maybe hretry (ih c)
  | many _ ih => exact Rule.sameUpToOrder_many hretry ih c
  | nested _ ih => exact Rule.sameUpToOrder_nested (ih _)
  | levels _ ih => exact ih _ c

end Script

end RequestDoc

import RequestDoc.Rule.Basic

/-!
What rules come to. Each way of putting rules together is told by the outcomes of the rules in it: a choice
comes to what one of its rules comes to, a repetition to a run of its rule that stops, items with commas to
a row of items, and a nested rule to what it comes to one level deeper.
-/

namespace RequestDoc.Rule

variable {α β : Type} {retry : Retry} {c d e : Cursor} {err : ParseError}

/-! ### Sequence -/

theorem bind_of_ok {rule : Rule α} {next : α → Rule β} {a : α} (h : rule c = .ok (a, d)) :
    (rule >>= next) c = next a d := by
  show Except.bind (rule c) _ = _
  rw [h]
  rfl

theorem bind_of_error {rule : Rule α} {next : α → Rule β} (h : rule c = .error err) :
    (rule >>= next) c = .error err := by
  show Except.bind (rule c) _ = _
  rw [h]
  rfl

theorem bind_eq_ok {rule : Rule α} {next : α → Rule β} {b : β} :
    (rule >>= next) c = .ok (b, e) ↔ ∃ a d, rule c = .ok (a, d) ∧ next a d = .ok (b, e) := by
  constructor
  · intro h
    cases hr : rule c with
    | error err =>
      rw [bind_of_error hr] at h
      cases h
    | ok r => exact ⟨r.1, r.2, rfl, by rwa [bind_of_ok hr] at h⟩
  · rintro ⟨a, d, hr, hn⟩
    rw [bind_of_ok hr, hn]

theorem bind_eq_error {rule : Rule α} {next : α → Rule β} :
    (rule >>= next) c = .error err ↔
      rule c = .error err ∨ ∃ a d, rule c = .ok (a, d) ∧ next a d = .error err := by
  constructor
  · intro h
    cases hr : rule c with
    | error err' =>
      rw [bind_of_error hr] at h
      exact Or.inl (congrArg _ (Except.error.inj h))
    | ok r => exact Or.inr ⟨r.1, r.2, rfl, by rwa [bind_of_ok hr] at h⟩
  · rintro (hr | ⟨a, d, hr, hn⟩)
    · exact bind_of_error hr
    · rw [bind_of_ok hr, hn]

theorem lexeme_eq_ok {read : Lexeme α} {r : α × Cursor} : lexeme read c = .ok r ↔ read c = .ok r := by
  unfold lexeme
  cases read c <;> simp

theorem lexeme_eq_error {read : Lexeme α} :
    lexeme read c = .error err ↔ ∃ m, read c = .error m ∧ err = .ofMismatch m := by
  unfold lexeme
  cases read c <;> simp [eq_comm]

theorem token_eq_ok {t : Token} {u : Unit} : token t c = .ok (u, d) ↔ Lexeme.token t c = .ok ((), d) :=
  lexeme_eq_ok

theorem tokenIf_eq_ok {t : Token} {b : Bool} :
    tokenIf t c = .ok (b, d) ↔
      (b = true ∧ Lexeme.token t c = .ok ((), d)) ∨
        (b = false ∧ d = c ∧ ∃ m, Lexeme.token t c = .error m) := by
  unfold tokenIf
  cases Lexeme.token t c with
  | error m => simp [eq_comm]
  | ok r =>
    obtain ⟨⟨⟩, next⟩ := r
    simp [eq_comm]

/-! ### Choice -/

theorem firstOf_eq_ok {rules : List (Rule α)} {failure : Option ParseError} {r : α × Cursor}
    (h : firstOf retry failure rules c = .ok r) : ∃ rule ∈ rules, rule c = .ok r := by
  induction rules generalizing failure with
  | nil => cases h
  | cons rule rules ih =>
    rw [firstOf] at h
    split at h
    next r' hr =>
      obtain rfl := Except.ok.inj h
      exact ⟨rule, List.mem_cons_self, hr⟩
    next err hr =>
      split at h
      · obtain ⟨other, hm, ho⟩ := ih h
        exact ⟨other, List.mem_cons_of_mem rule hm, ho⟩
      · cases h

theorem choice_eq_ok {rules : List (Rule α)} {r : α × Cursor} (h : choice retry rules c = .ok r) :
    ∃ rule ∈ rules, rule c = .ok r :=
  firstOf_eq_ok h

theorem of_firstOf_eq_error {P : ParseError → Prop} {rules : List (Rule α)}
    (hrules : ∀ rule ∈ rules, ∀ err, rule c = .error err → P err) (hmerge : ∀ {err other}, P err → P other → P (err.merge other))
    (failure : Option ParseError) (hnone : failure = none → rules = [] → P (.ofMismatch (c.mismatch "alternative")))
    (hfailure : ∀ before ∈ failure, P before) (h : firstOf retry failure rules c = .error err) : P err := by
  induction rules generalizing failure with
  | nil =>
    obtain rfl := Except.error.inj h
    cases failure with
    | none => exact hnone rfl rfl
    | some before => exact hfailure before rfl
  | cons rule rules ih =>
    rw [firstOf] at h
    split at h
    · cases h
    next err' hr =>
      have herr := hrules rule List.mem_cons_self err' hr
      split at h
      · refine ih (fun other hm => hrules other (List.mem_cons_of_mem rule hm)) (some _) (fun hnone => nomatch hnone) ?_ h
        rintro _ ⟨⟩
        cases failure with
        | none => exact herr
        | some before => exact hmerge (hfailure before rfl) herr
      · obtain rfl := Except.error.inj h
        exact herr

/-- The error of a choice is what the errors of its rules are, if merging keeps it. -/
theorem of_choice_eq_error {P : ParseError → Prop} {rules : List (Rule α)}
    (hrules : ∀ rule ∈ rules, ∀ err, rule c = .error err → P err) (hmerge : ∀ {err other}, P err → P other → P (err.merge other))
    (hnone : P (.ofMismatch (c.mismatch "alternative"))) (h : choice retry rules c = .error err) : P err :=
  of_firstOf_eq_error hrules hmerge none (fun _ _ => hnone) (fun _ hb => nomatch hb) h

/-- The error of a choice with some rules is what the errors of its rules are, if merging keeps it. -/
theorem of_choice_eq_error_of_ne_nil {P : ParseError → Prop} {rules : List (Rule α)} (hne : rules ≠ [])
    (hrules : ∀ rule ∈ rules, ∀ err, rule c = .error err → P err) (hmerge : ∀ {err other}, P err → P other → P (err.merge other))
    (h : choice retry rules c = .error err) : P err :=
  of_firstOf_eq_error hrules hmerge none (fun _ hnil => absurd hnil hne) (fun _ hb => nomatch hb) h

/-- A choice fails if all its rules do. -/
theorem choice_of_errors {P : ParseError → Prop} {rules : List (Rule α)}
    (hrules : ∀ rule ∈ rules, ∃ err, rule c = .error err ∧ P err) (hmerge : ∀ {err other}, P err → P other → P (err.merge other))
    (hnone : P (.ofMismatch (c.mismatch "alternative"))) : ∃ err, choice retry rules c = .error err ∧ P err := by
  cases h : choice retry rules c with
  | ok r =>
    obtain ⟨rule, hm, hr⟩ := choice_eq_ok h
    obtain ⟨err, herr, -⟩ := hrules rule hm
    rw [hr] at herr
    cases herr
  | error err =>
    refine ⟨err, rfl, of_choice_eq_error (fun rule hm err' herr' => ?_) hmerge hnone h⟩
    obtain ⟨_, herr, hp⟩ := hrules rule hm
    obtain rfl := Except.error.inj (herr'.symm.trans herr)
    exact hp

/-- An outcome after which no other rule is tried. -/
def Final (retry : Retry) (c : Cursor) (outcome : Except ParseError (α × Cursor)) : Prop :=
  ∀ err, outcome = .error err → retry err c.offset = false

theorem final_ok {r : α × Cursor} : Final retry c (.ok r) :=
  fun _ h => nomatch h

theorem final_error (h : retry err c.offset = false) :
    Final retry c (.error err : Except ParseError (α × Cursor)) := by
  rintro _ ⟨⟩
  exact h

theorem Final.placed {next : Position → Rule α} (h : Final retry c (next c.position c)) :
    Final retry c ((position >>= next) c) :=
  h

/-- The rule fails in a way that lets another rule be tried. -/
def Yields (retry : Retry) (rule : Rule α) (c : Cursor) : Prop :=
  ∃ err, rule c = .error err ∧ retry err c.offset = true

theorem firstOf_of_final {rules : List (Rule α)} {outcome : Except ParseError (α × Cursor)}
    (hf : Final retry c outcome) (hex : ∃ rule ∈ rules, rule c = outcome)
    (hall : ∀ rule ∈ rules, rule c = outcome ∨ Yields retry rule c) (failure : Option ParseError) :
    firstOf retry failure rules c = outcome := by
  induction rules generalizing failure with
  | nil =>
    obtain ⟨rule, hm, -⟩ := hex
    cases hm
  | cons rule rules ih =>
    rw [firstOf]
    rcases hall rule List.mem_cons_self with hr | ⟨err, hr, hretry⟩
    · rw [hr]
      cases outcome with
      | ok r => rfl
      | error err => simp only [hf err rfl, Bool.false_eq_true, if_false]
    · simp only [hr, hretry, if_true]
      refine ih ?_ (fun other hm => hall other (List.mem_cons_of_mem rule hm)) _
      obtain ⟨other, hm, ho⟩ := hex
      rcases List.mem_cons.mp hm with rfl | hm
      · rw [ho] at hr
        rw [hf err hr] at hretry
        cases hretry
      · exact ⟨other, hm, ho⟩

/-- A choice comes to what one of its rules comes to if the others yield to it, in any order. -/
theorem choice_of_final {rules : List (Rule α)} {outcome : Except ParseError (α × Cursor)}
    (hf : Final retry c outcome) (hex : ∃ rule ∈ rules, rule c = outcome)
    (hall : ∀ rule ∈ rules, rule c = outcome ∨ Yields retry rule c) : choice retry rules c = outcome :=
  firstOf_of_final hf hex hall none

theorem final_of_not_yields {rule : Rule α} (h : ¬Yields retry rule c) : Final retry c (rule c) := by
  intro err herr
  cases hretry : retry err c.offset with
  | true => exact absurd ⟨err, herr, hretry⟩ h
  | false => rfl

/-- A choice comes to what a rule comes to that does not yield, if those in front of it do. -/
theorem choice_of_tried {rule : Rule α} {before after : List (Rule α)} (hbefore : ∀ other ∈ before, Yields retry other c)
    (h : ¬Yields retry rule c) : choice retry (before ++ rule :: after) c = rule c := by
  have hfirst (failure : Option ParseError) : firstOf retry failure (before ++ rule :: after) c = rule c := by
    induction before generalizing failure with
    | nil =>
      rw [List.nil_append, firstOf]
      split
      next hr => exact hr.symm
      next err hr =>
        rw [final_of_not_yields h err hr]
        exact hr.symm
    | cons other before ih =>
      obtain ⟨err, hr, hretry⟩ := hbefore other List.mem_cons_self
      rw [List.cons_append, firstOf, hr]
      simp only [hretry, if_true]
      exact ih (fun other hm => hbefore other (List.mem_cons_of_mem _ hm)) _
  exact hfirst none

/-- A choice fails if all its rules let another one be tried, or as one of them that does not. -/
theorem firstOf_eq_error {rules : List (Rule α)} {failure : Option ParseError}
    (h : firstOf retry failure rules c = .error err) :
    (∀ rule ∈ rules, Yields retry rule c) ∨ ∃ rule ∈ rules, rule c = .error err ∧ retry err c.offset = false := by
  induction rules generalizing failure with
  | nil => exact Or.inl fun _ hm => nomatch hm
  | cons rule rules ih =>
    rw [firstOf] at h
    split at h
    · cases h
    next err' hr =>
      split at h
      next hretry =>
        rcases ih h with hall | ⟨other, hm, ho⟩
        · exact Or.inl (List.forall_mem_cons.mpr ⟨⟨err', hr, hretry⟩, hall⟩)
        · exact Or.inr ⟨other, List.mem_cons_of_mem rule hm, ho⟩
      next hretry =>
        obtain rfl := Except.error.inj h
        exact Or.inr ⟨rule, List.mem_cons_self, hr, by simpa using hretry⟩

theorem choice_eq_error {rules : List (Rule α)} (h : choice retry rules c = .error err) :
    (∀ rule ∈ rules, Yields retry rule c) ∨ ∃ rule ∈ rules, rule c = .error err ∧ retry err c.offset = false :=
  firstOf_eq_error h

theorem maybe_eq_ok {rule : Rule α} {o : Option α} :
    maybe retry rule c = .ok (o, d) ↔
      (∃ a, o = some a ∧ rule c = .ok (a, d)) ∨ (o = none ∧ d = c ∧ Yields retry rule c) := by
  constructor
  · intro h
    unfold maybe at h
    split at h
    next a next hr =>
      obtain ⟨rfl, rfl⟩ := Prod.mk.inj (Except.ok.inj h)
      exact Or.inl ⟨a, rfl, hr⟩
    next err hr =>
      split at h
      next hretry =>
        obtain ⟨rfl, rfl⟩ := Prod.mk.inj (Except.ok.inj h)
        exact Or.inr ⟨rfl, rfl, err, hr, hretry⟩
      · cases h
  · rintro (⟨a, rfl, hr⟩ | ⟨rfl, rfl, err, hr, hretry⟩)
    · simp only [maybe, hr]
    · simp only [maybe, hr, hretry, if_true]

theorem maybe_eq_error {rule : Rule α} :
    maybe retry rule c = .error err ↔ rule c = .error err ∧ retry err c.offset = false := by
  unfold maybe
  cases rule c with
  | ok r => simp
  | error err' =>
    cases hretry : retry err' c.offset with
    | true =>
      simp only [if_true, hretry, Except.error.injEq, reduceCtorEq, false_iff, not_and]
      rintro rfl
      simp [hretry]
    | false =>
      simp only [Bool.false_eq_true, if_false, hretry, Except.error.injEq]
      exact ⟨fun h => ⟨h, h ▸ hretry⟩, fun h => h.1⟩

/-! ### Repetition -/

/-- The rule reads the items one after the other, each time leaving less. -/
inductive Run (rule : Rule α) : Cursor → List α → Cursor → Prop where
  | nil (c : Cursor) : Run rule c [] c
  | cons {c d e : Cursor} {a : α} {as : List α} :
      rule c = .ok (a, d) → d.left < c.left → Run rule d as e → Run rule c (a :: as) e

theorem Run.append {rule : Rule α} {as bs : List α} (h : Run rule c as d) (k : Run rule d bs e) :
    Run rule c (as ++ bs) e := by
  induction h with
  | nil => exact k
  | cons hr hlt _ ih => exact .cons hr hlt (ih k)

/-- Of a run of a rule and one that the rule cannot go on from, the first is a part. -/
theorem Run.reaches {rule : Rule α} {as bs : List α} (h : Run rule c as e) (k : Run rule c bs d) (hend : ∀ r, rule d ≠ .ok r) :
    e = d ∨ ∃ a f cs, rule e = .ok (a, f) ∧ Run rule f cs d := by
  induction h generalizing bs with
  | nil =>
    cases k with
    | nil => exact Or.inl rfl
    | cons hr _ hmore => exact Or.inr ⟨_, _, _, hr, hmore⟩
  | cons hr _ _ ih =>
    cases k with
    | nil => exact absurd hr (hend _)
    | cons hr' _ hmore =>
      obtain ⟨rfl, rfl⟩ := Prod.mk.inj (Except.ok.inj (hr.symm.trans hr'))
      exact ih hmore

/-- A repetition of the rule ends here without an error. -/
def Stops (retry : Retry) (rule : Rule α) (c : Cursor) : Prop :=
  (∃ a d, rule c = .ok (a, d) ∧ ¬d.left < c.left) ∨ Yields retry rule c

theorem collectFrom_of_step {rule : Rule α} {a : α} (h : rule c = .ok (a, d)) (hlt : d.left < c.left) (items : List α) :
    collectFrom retry rule items c = collectFrom retry rule (a :: items) d := by
  rw [collectFrom, h]
  exact if_pos hlt

theorem collectFrom_of_still {rule : Rule α} {a : α} (h : rule c = .ok (a, d)) (hlt : ¬d.left < c.left) (items : List α) :
    collectFrom retry rule items c = (items.reverse, .ok c) := by
  rw [collectFrom, h]
  exact if_neg hlt

theorem collectFrom_of_error {rule : Rule α} (h : rule c = .error err) (items : List α) :
    collectFrom retry rule items c = (items.reverse, if retry err c.offset then .ok c else .error err) := by
  rw [collectFrom, h]

theorem collectFrom_of_run {rule : Rule α} {as : List α} (h : Run rule c as d) (items : List α) :
    collectFrom retry rule items c = collectFrom retry rule (as.reverse ++ items) d := by
  induction h generalizing items with
  | nil => rfl
  | cons hr hlt _ ih =>
    rw [collectFrom, hr]
    simp only [hlt, if_true]
    rw [ih, List.reverse_cons, List.append_assoc, List.singleton_append]

theorem collectFrom_of_stops {rule : Rule α} (h : Stops retry rule c) (items : List α) :
    collectFrom retry rule items c = (items.reverse, .ok c) := by
  rw [collectFrom]
  rcases h with ⟨a, d, hr, hlt⟩ | ⟨err, hr, hretry⟩
  · simp only [hr, hlt, if_false]
  · simp only [hr, hretry, if_true]

/-- Whatever a repetition comes to, a run of the rule leads to the place where it ended. -/
theorem run_of_collectFrom {rule : Rule α} {items as : List α} {out : Except ParseError Cursor}
    (h : collectFrom retry rule items c = (as, out)) :
    ∃ more d, Run rule c more d ∧ as = items.reverse ++ more ∧
      ((out = .ok d ∧ Stops retry rule d) ∨
        ∃ err, out = .error err ∧ rule d = .error err ∧ retry err d.offset = false) := by
  fun_induction collectFrom retry rule items c with
  | case1 items c a d hr hlt ih =>
    obtain ⟨more, e, hrun, rfl, hend⟩ := ih h
    refine ⟨a :: more, e, .cons hr hlt hrun, ?_, hend⟩
    rw [List.reverse_cons, List.append_assoc, List.singleton_append]
  | case2 items c a d hr hlt =>
    obtain ⟨rfl, rfl⟩ := Prod.mk.inj h
    exact ⟨[], c, .nil c, (List.append_nil _).symm, Or.inl ⟨rfl, Or.inl ⟨a, d, hr, hlt⟩⟩⟩
  | case3 items c err hr =>
    obtain ⟨rfl, rfl⟩ := Prod.mk.inj h
    refine ⟨[], c, .nil c, (List.append_nil _).symm, ?_⟩
    by_cases hretry : retry err c.offset = true
    · exact Or.inl ⟨if_pos hretry, Or.inr ⟨err, hr, hretry⟩⟩
    · exact Or.inr ⟨err, if_neg hretry, hr, by simpa using hretry⟩

theorem collect_eq_ok_iff {rule : Rule α} {as : List α} :
    collect retry rule c = (as, .ok d) ↔ Run rule c as d ∧ Stops retry rule d := by
  constructor
  · intro h
    obtain ⟨more, e, hrun, rfl, hend⟩ := run_of_collectFrom h
    rcases hend with ⟨he, hs⟩ | ⟨err, he, -, -⟩
    · obtain rfl := Except.ok.inj he
      exact ⟨hrun, hs⟩
    · cases he
  · rintro ⟨hrun, hs⟩
    rw [collect, collectFrom_of_run hrun, collectFrom_of_stops hs, List.append_nil, List.reverse_reverse]

theorem collect_eq_error {rule : Rule α} {as : List α} :
    collect retry rule c = (as, .error err) ↔
      ∃ d, Run rule c as d ∧ rule d = .error err ∧ retry err d.offset = false := by
  constructor
  · intro h
    obtain ⟨more, d, hrun, rfl, hend⟩ := run_of_collectFrom h
    rcases hend with ⟨he, -⟩ | ⟨err', he, hr, hretry⟩
    · cases he
    · obtain rfl := Except.error.inj he
      exact ⟨d, hrun, hr, hretry⟩
  · rintro ⟨d, hrun, hr, hretry⟩
    rw [collect, collectFrom_of_run hrun, collectFrom, hr]
    simp only [hretry, Bool.false_eq_true, if_false, List.append_nil, List.reverse_reverse]

theorem many_eq_ok_iff {rule : Rule α} {as : List α} :
    many retry rule c = .ok (as, d) ↔ Run rule c as d ∧ Stops retry rule d := by
  rw [← collect_eq_ok_iff]
  unfold many
  obtain ⟨items, out⟩ := collect retry rule c
  cases out <;> simp

theorem many_eq_error {rule : Rule α} :
    many retry rule c = .error err ↔
      ∃ as d, Run rule c as d ∧ rule d = .error err ∧ retry err d.offset = false := by
  simp only [← collect_eq_error, many]
  obtain ⟨items, out⟩ := collect retry rule c
  cases out <;> simp

/-! ### Items with commas -/

/-- The rule reads the items one after the other, with a comma between each two of them. -/
inductive Items (item : Rule α) : Cursor → List α → Cursor → Prop where
  | none (c : Cursor) : Items item c [] c
  | one {c d : Cursor} {a : α} : item c = .ok (a, d) → Items item c [a] d
  | more {c d e f : Cursor} {a b : α} {as : List α} :
      item c = .ok (a, d) → Lexeme.token .comma d = .ok ((), e) → Items item e (b :: as) f →
      Items item c (a :: b :: as) f

theorem items_of_run {item : Rule α} {a : α} {as : List α} (hi : item c = .ok (a, d))
    (h : Run (do token .comma; item) d as e) : Items item c (a :: as) e := by
  generalize hrule : (do token .comma; item) = rule at h
  induction h generalizing a c with
  | nil => exact .one hi
  | cons hr _ _ ih =>
    subst hrule
    obtain ⟨⟨⟩, next, ht, hi'⟩ := bind_eq_ok.mp hr
    exact .more hi (token_eq_ok.mp ht) (ih hi')

theorem sepBy_eq_ok {item : Rule α} {as : List α} (h : sepBy retry item (token .comma) c = .ok (as, d)) :
    Items item c as d := by
  obtain ⟨o, next, hm, hrest⟩ := bind_eq_ok.mp h
  rcases maybe_eq_ok.mp hm with ⟨a, rfl, hi⟩ | ⟨rfl, rfl, -⟩
  · obtain ⟨others, last, hrun, hlast⟩ := bind_eq_ok.mp hrest
    obtain ⟨rfl, rfl⟩ := Prod.mk.inj (Except.ok.inj hlast)
    exact items_of_run hi (many_eq_ok_iff.mp hrun).1
  · obtain ⟨rfl, rfl⟩ := Prod.mk.inj (Except.ok.inj hrest)
    exact .none _

/-- Items with commas fail where the first item fails, or behind some items: at the comma or at the item
behind it. -/
theorem sepBy_eq_error {item : Rule α} (h : sepBy retry item (token .comma) c = .error err) :
    item c = .error err ∨ ∃ as d, Items item c as d ∧
      (token .comma d = .error err ∨ ∃ e, Lexeme.token .comma d = .ok ((), e) ∧ item e = .error err) := by
  rcases bind_eq_error.mp h with hm | ⟨o, next, hm, hrest⟩
  · exact Or.inl ((maybe_eq_error.mp hm).1)
  · rcases maybe_eq_ok.mp hm with ⟨a, rfl, hi⟩ | ⟨rfl, rfl, -⟩
    · rcases bind_eq_error.mp hrest with hmany | ⟨_, _, _, hlast⟩
      · obtain ⟨as, last, hrun, herr, -⟩ := many_eq_error.mp hmany
        refine Or.inr ⟨a :: as, last, items_of_run hi hrun, ?_⟩
        rcases bind_eq_error.mp herr with ht | ⟨⟨⟩, e, ht, hi'⟩
        · exact Or.inl ht
        · exact Or.inr ⟨e, token_eq_ok.mp ht, hi'⟩
      · cases hlast
    · cases hrest

/-! ### Nesting -/

theorem nested_eq_ok {rule : Rule α} {a : α} :
    nested rule c = .ok (a, d) ↔
      c.depth < c.depthLimit ∧
        ∃ e, rule (c.withDepth (c.depth + 1)) = .ok (a, e) ∧ d = e.withDepth c.depth := by
  unfold nested
  split
  next h =>
    simp only [reduceCtorEq, false_iff, not_and]
    exact fun hlt => absurd h (Nat.not_le.mpr hlt)
  next h =>
    have hlt : c.depth < c.depthLimit := Nat.not_le.mp h
    cases rule (c.withDepth (c.depth + 1)) with
    | error err => simp
    | ok r =>
      obtain ⟨b, e⟩ := r
      constructor
      · intro hok
        obtain ⟨rfl, rfl⟩ := Prod.mk.inj (Except.ok.inj hok)
        exact ⟨hlt, e, rfl, rfl⟩
      · rintro ⟨-, e', hok, rfl⟩
        obtain ⟨rfl, rfl⟩ := Prod.mk.inj (Except.ok.inj hok)
        rfl

theorem nested_eq_error {rule : Rule α} :
    nested rule c = .error err ↔
      (c.depthLimit ≤ c.depth ∧ err = .tooDeep c.depthLimit c.position) ∨
        (c.depth < c.depthLimit ∧ rule (c.withDepth (c.depth + 1)) = .error err) := by
  unfold nested
  split
  next h => simp [h, Nat.not_lt.mpr h, eq_comm]
  next h =>
    have hlt : c.depth < c.depthLimit := Nat.not_le.mp h
    cases rule (c.withDepth (c.depth + 1)) with
    | error err' => simp [h, hlt]
    | ok r => simp [h]

/-- Items with commas between two tokens, nested, and what is built of them. -/
def bracketed (retry : Retry) (opening closing : Token) (item : Rule α) (build : List α → β) : Rule β := do
  token opening
  nested do
    let items ← sepBy retry item (token .comma)
    token closing
    return build items

theorem bracketed_eq_ok {opening closing : Token} {item : Rule α} {build : List α → β} {b : β}
    (h : bracketed retry opening closing item build c = .ok (b, d)) :
    ∃ items c' e f, Lexeme.token opening c = .ok ((), c') ∧ c'.depth < c'.depthLimit ∧
      Items item (c'.withDepth (c'.depth + 1)) items e ∧ Lexeme.token closing e = .ok ((), f) ∧
      d = f.withDepth c'.depth ∧ b = build items := by
  obtain ⟨⟨⟩, c', hopen, hnested⟩ := bind_eq_ok.mp h
  obtain ⟨hlt, f, hbody, rfl⟩ := nested_eq_ok.mp hnested
  obtain ⟨items, e, hitems, hrest⟩ := bind_eq_ok.mp hbody
  obtain ⟨⟨⟩, f', hclose, hlast⟩ := bind_eq_ok.mp hrest
  obtain ⟨rfl, rfl⟩ := Prod.mk.inj (Except.ok.inj hlast)
  exact ⟨items, c', e, f', token_eq_ok.mp hopen, hlt, sepBy_eq_ok hitems, token_eq_ok.mp hclose, rfl, rfl⟩

end RequestDoc.Rule

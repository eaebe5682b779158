import RequestDoc.Proofs.Error.Sequence
import RequestDoc.Proofs.Rule.First

/-!
Errors that are given up. Where an optional part is missing or a repetition ends, there is an error that nobody sees: the
rule goes on as if nothing had been tried. Such an error may stand at the very offset of the error that is reported in
the end. Two lists of labels for each script tell that they never have a label in common: what its own errors can name at
its start, and what may have been given up at the place where it ends.
-/

namespace RequestDoc

variable {α β : Type} {s : Strategy} {retry : Retry} {c d e : Cursor} {err dropped : ParseError} {k k' : Nat}

/-- Whatever the error names at an offset or behind it, it names at that offset, and only such labels. -/
def ParseError.UpTo (k : Nat) (Last : String → Prop) (err : ParseError) : Prop :=
  ∀ k' label, label ∈ err.labelsAt k' → k' < k ∨ k' = k ∧ Last label

namespace ParseError

variable {Last Last' : String → Prop}

theorem UpTo.mono (h : err.UpTo k Last) (hle : k ≤ k') (hl : ∀ label, Last label → Last' label) : err.UpTo k' Last' := by
  intro _ _ hm
  rcases h _ _ hm with hlt | ⟨rfl, hlast⟩
  · exact Or.inl (Nat.lt_of_lt_of_le hlt hle)
  · rcases Nat.lt_or_eq_of_le hle with hlt | rfl
    · exact Or.inl hlt
    · exact Or.inr ⟨rfl, hl _ hlast⟩

theorem UpTo.of_lt (h : err.UpTo k Last) (hlt : k < k') : err.UpTo k' Last' := by
  intro _ _ hm
  rcases h _ _ hm with hlt' | ⟨rfl, -⟩
  · exact Or.inl (Nat.lt_trans hlt' hlt)
  · exact Or.inl hlt

/-- An error at an offset names its labels there and nothing anywhere else. -/
theorem upTo_of_failsAt (h : err.failsAt k = true) (hl : ∀ label ∈ err.labelsAt k, Last label) : err.UpTo k Last := by
  obtain ⟨place, expected, rfl⟩ := failsAt_iff.mp h
  intro k' label hm
  obtain ⟨_, _, heq, -⟩ := mem_labelsAt.mp hm
  cases heq
  exact Or.inr ⟨rfl, hl label hm⟩

end ParseError

/-- The labels of errors where no lexeme of the kind starts. -/
def Lexeme.Kind.labels : Lexeme.Kind α → List String
  | token t => [t.label]
  | name => ["identifier"]
  | number => ["number"]
  | quoted => ["string"]
  | endOfInput => ["end of input"]

namespace Script

/-! ### What is given up -/

/-- While the script runs at the cursor the error is given up: an optional part or the next item of a repetition fails
with it, and the script goes on. A form of a choice is run if all forms in front of it let another one be tried. -/
def Drops (retry : Retry) {α : Type} : Script α → Cursor → ParseError → Prop
  | lexeme _, _, _ => False
  | tokenIf t, c, err => Rule.token t c = .error err
  | position, _, _ => False
  | pure _, _, _ => False
  | tooDeep, _, _ => False
  | bind first next, c, err =>
    first.Drops retry c err ∨ ∃ a d, first.run retry c = .ok (a, d) ∧ (next a).Drops retry d err
  | @choice ι _ forms form, c, err =>
    ∃ (before : List ι) (f : ι) (after : List ι), forms = before ++ f :: after ∧
      (∀ g ∈ before, Rule.Yields retry ((form g).run retry) c) ∧ (form f).Drops retry c err
  | maybe script, c, err => script.Drops retry c err ∨ script.run retry c = .error err ∧ retry err c.offset = true
  | many script, c, err =>
    ∃ as d, Rule.Run (script.run retry) c as d ∧
      (script.Drops retry d err ∨ script.run retry d = .error err ∧ retry err d.offset = true)
  | nested script, c, err => c.depth < c.depthLimit ∧ script.Drops retry (c.withDepth (c.depth + 1)) err
  | levels script, c, err => (script (c.depthLimit - c.depth + 1)).Drops retry c err

/-- The script reads something, and gives nothing up if it fails at its start. -/
structure Guarded (retry : Retry) (x : Script α) : Prop where
  moves : ∀ {c d : Cursor} {a : α}, x.run retry c = .ok (a, d) → c.offset < d.offset
  clear : ∀ {c : Cursor} {err dropped : ParseError}, x.run retry c = .error err → err.failsAt c.offset = true →
    ¬x.Drops retry c dropped

/-- What the script gives up has no label in common with its own error. At its start its errors name only `heads`, and where
it ends only `lasts` may have been given up. -/
structure Tidy (retry : Retry) (x : Script α) (heads lasts : List String) : Prop where
  heads : ∀ {c : Cursor} {err : ParseError}, x.run retry c = .error err → err.labelsAt c.offset ⊆ heads
  ok : ∀ {c d : Cursor} {a : α} {dropped : ParseError}, c.Valid → x.run retry c = .ok (a, d) → x.Drops retry c dropped →
    dropped.UpTo d.offset (· ∈ lasts)
  error : ∀ {c : Cursor} {err dropped : ParseError} {k : Nat}, c.Valid → x.run retry c = .error err →
    x.Drops retry c dropped → err.failsAt k = true → dropped.UpTo k (· ∉ err.labelsAt k)

variable {x : Script α} {next : α → Script β} {heads heads' lasts lasts' : List String}

theorem offset_le_of_ok {a : α} (h : x.run retry c = .ok (a, d)) : c.offset ≤ d.offset := by
  obtain ⟨text, hr⟩ := x.moves_run.reads h
  exact hr.offset_le

theorem valid_of_ok {a : α} (h : x.run retry c = .ok (a, d)) (hc : c.Valid) : d.Valid := by
  obtain ⟨text, hr⟩ := x.moves_run.reads h
  exact hr.valid hc

/-- A label that is given up is none that the script reports at the same offset. -/
theorem Tidy.not_mem (h : x.Tidy retry heads lasts) (hc : c.Valid) (herr : x.run retry c = .error err)
    (hdrops : x.Drops retry c dropped) {label : String} (hm : label ∈ dropped.labelsAt k) : label ∉ err.labelsAt k := by
  intro hlabel
  rcases h.error hc herr hdrops (ParseError.failsAt_of_mem_labelsAt hlabel) k label hm with hlt | ⟨-, hnot⟩
  · exact Nat.lt_irrefl k hlt
  · exact hnot hlabel

theorem Tidy.mono (h : x.Tidy retry heads lasts) (hheads : heads ⊆ heads') (hlasts : lasts ⊆ lasts') :
    x.Tidy retry heads' lasts' where
  heads herr := List.Subset.trans (h.heads herr) hheads
  ok hc hok hdrops := (h.ok hc hok hdrops).mono (Nat.le_refl _) fun _ hl => hlasts hl
  error := h.error

/-- A script that gives nothing up. -/
theorem tidy_of_not_drops (hheads : ∀ {c err}, x.run retry c = .error err → err.labelsAt c.offset ⊆ heads)
    (h : ∀ {c dropped}, ¬x.Drops retry c dropped) : x.Tidy retry heads [] where
  heads := hheads
  ok _ _ hdrops := absurd hdrops h
  error _ _ hdrops := absurd hdrops h

/-! ### Parts -/

theorem tidy_lexeme (kind : Lexeme.Kind α) : (lexeme kind).Tidy retry kind.labels [] := by
  refine tidy_of_not_drops (fun {c err} herr => ?_) id
  obtain ⟨m, hm, rfl⟩ := Rule.lexeme_eq_error.mp herr
  suffices h : m.offset = c.offset → m.expected ∈ kind.labels by
    intro label hlabel
    obtain ⟨_, _, heq, hmem⟩ := ParseError.mem_labelsAt.mp hlabel
    obtain ⟨hoffset, -, rfl⟩ := ParseError.mismatch.inj heq
    exact List.mem_singleton.mp hmem ▸ h hoffset
  cases kind with
  | token t => exact fun _ => List.mem_singleton.mpr (by rw [Lexeme.token_eq_error hm]; rfl)
  | name => exact fun _ => List.mem_singleton.mpr (by rw [Lexeme.name_eq_error hm]; rfl)
  | number => exact fun _ => List.mem_singleton.mpr (by rw [Lexeme.number_eq_error hm]; rfl)
  | quoted =>
    intro hoffset
    have hnone := (Rule.told_quoted.failsAt_iff herr).mp (beq_iff_eq.mpr hoffset)
    rw [anyStarts_singleton] at hnone
    have hunopened : Lexeme.quoted c = .error (c.mismatch "string") := Lexeme.quoted_refuses fun x hx heq => by
      subst heq
      exact hnone hx
    cases hunopened.symm.trans hm
    exact List.mem_singleton.mpr rfl
  | endOfInput =>
    simp only [Lexeme.Kind.read, Lexeme.endOfInput] at hm
    split at hm
    · cases hm
    · cases hm
      exact fun _ => List.mem_singleton.mpr rfl

theorem tidy_pure (a : α) : (pure a : Script α).Tidy retry [] [] :=
  tidy_of_not_drops (fun h => nomatch h) id

theorem tidy_tooDeep : (tooDeep : Script α).Tidy retry [] [] := by
  refine tidy_of_not_drops (fun herr => ?_) id
  obtain rfl := Except.error.inj herr
  exact List.nil_subset _

theorem not_tokenIf_eq_error {t : Token} : Rule.tokenIf t c ≠ .error err := by
  unfold Rule.tokenIf
  split <;> exact fun h => nomatch h

/-- A mark that may be missing is given up where it is missing. -/
theorem tidy_tokenIf (t : Token) : (tokenIf t).Tidy retry [] [t.label] where
  heads herr := absurd herr not_tokenIf_eq_error
  ok {c d a dropped} _ hok hdrops := by
    have hdrops : Rule.token t c = .error dropped := hdrops
    obtain ⟨m, hm, rfl⟩ := Rule.lexeme_eq_error.mp hdrops
    rcases Rule.tokenIf_eq_ok.mp hok with ⟨-, ht⟩ | ⟨-, rfl, -⟩
    · cases ht.symm.trans hm
    · have htidy : (lexeme (.token t)).Tidy retry _ _ := tidy_lexeme _
      refine ParseError.upTo_of_failsAt ?_ fun _ hl => htidy.heads hdrops hl
      rw [Lexeme.token_eq_error hm]
      exact beq_self_eq_true _
  error _ herr _ _ := absurd herr not_tokenIf_eq_error

theorem guarded_tooDeep : (tooDeep : Script α).Guarded retry where
  moves h := nomatch h
  clear h hfails := by
    obtain rfl := Except.error.inj h
    cases hfails

/-- A lexeme that comes first. -/
theorem guarded_lexeme {kind : Lexeme.Kind α} {firsts : List FirstLexeme} (h : Rule.Told firsts (Rule.lexeme kind.read)) :
    (lexeme kind).Guarded retry where
  moves hok := (h.ok hok).1
  clear _ _ := id

/-! ### Sequence -/

theorem Guarded.bind (h : x.Guarded retry) (next : α → Script β) : (x >>= next).Guarded retry where
  moves hok := by
    obtain ⟨a, e, hx, hn⟩ := Rule.bind_eq_ok.mp hok
    exact Nat.lt_of_lt_of_le (h.moves hx) (offset_le_of_ok hn)
  clear {c err dropped} herr hfails hdrops := by
    rcases Rule.bind_eq_error.mp herr with hx | ⟨a, d, hx, hn⟩
    · rcases hdrops with hd | ⟨_, _, hok, -⟩
      · exact h.clear hx hfails hd
      · cases hx.symm.trans hok
    · rw [((next a).moves_run.meets hn).failsAt_of_lt (h.moves hx)] at hfails
      cases hfails

/-- Taking down the place makes no difference. -/
theorem guarded_placed {next : Position → Script β} (h : ∀ place, (next place).Guarded retry) :
    (position >>= next).Guarded retry where
  moves {c _ _} hok := (h c.position).moves hok
  clear {c _ _} herr hfails hdrops := by
    rcases hdrops with hd | ⟨place, d, hok, hd⟩
    · exact hd
    · obtain ⟨rfl, rfl⟩ := Prod.mk.inj (Except.ok.inj hok)
      exact (h _).clear herr hfails hd

theorem tidy_placed {next : Position → Script β} (h : ∀ place, (next place).Tidy retry heads lasts) :
    (position >>= next).Tidy retry heads lasts := by
  have hdrops {c dropped} (hd : (position >>= next).Drops retry c dropped) : (next c.position).Drops retry c dropped := by
    rcases hd with hd | ⟨place, d, hok, hd⟩
    · exact absurd hd id
    · obtain ⟨rfl, rfl⟩ := Prod.mk.inj (Except.ok.inj hok)
      exact hd
  exact {
    heads := fun {c _} herr => (h c.position).heads herr
    ok := fun {c _ _ _} hc hok hd => (h c.position).ok hc hok (hdrops hd)
    error := fun {c _ _ _} hc herr hd => (h c.position).error hc herr (hdrops hd) }

/-- What was given up where a script ends is named by no error at the start of the next one. -/
theorem Tidy.error_bind (h : x.Tidy retry heads lasts) (hn : ∀ a, (next a).Tidy retry heads' lasts')
    (hclear : ∀ label ∈ lasts, label ∉ heads') (hc : c.Valid) (herr : (x >>= next).run retry c = .error err)
    (hdrops : (x >>= next).Drops retry c dropped) (hk : err.failsAt k = true) : dropped.UpTo k (· ∉ err.labelsAt k) := by
  rcases Rule.bind_eq_error.mp herr with hx | ⟨a, d, hx, hnext⟩
  · rcases hdrops with hd | ⟨_, _, hok, -⟩
    · exact h.error hc hx hd hk
    · cases hx.symm.trans hok
  · rcases hdrops with hd | ⟨a', d', hok, hd⟩
    · have hup := h.ok hc hx hd
      rcases Nat.lt_or_eq_of_le (((next a).moves_run.meets hnext).offset_le_of_failsAt hk) with hlt | rfl
      · exact hup.of_lt hlt
      · exact hup.mono (Nat.le_refl _) fun label hl hm => hclear label hl ((hn a).heads hnext hm)
    · obtain ⟨rfl, rfl⟩ := Prod.mk.inj (Except.ok.inj (hx.symm.trans hok))
      exact (hn a).error (valid_of_ok hx hc) hnext hd hk

theorem Tidy.heads_bind (h : x.Tidy retry heads lasts) (hn : ∀ a, (next a).Tidy retry heads' lasts')
    (herr : (x >>= next).run retry c = .error err) : err.labelsAt c.offset ⊆ heads ++ heads' := by
  rcases Rule.bind_eq_error.mp herr with hx | ⟨a, d, hx, hnext⟩
  · exact List.subset_append_of_subset_left _ (h.heads hx)
  · rcases Nat.lt_or_eq_of_le (offset_le_of_ok hx) with hlt | heq
    · rw [ParseError.labelsAt_eq_nil (((next a).moves_run.meets hnext).failsAt_of_lt hlt)]
      exact List.nil_subset _
    · rw [heq]
      exact List.subset_append_of_subset_right _ ((hn a).heads hnext)

theorem Tidy.bind (h : x.Tidy retry heads lasts) (hn : ∀ a, (next a).Tidy retry heads' lasts')
    (hclear : ∀ label ∈ lasts, label ∉ heads') : (x >>= next).Tidy retry (heads ++ heads') (lasts ++ lasts') where
  heads := h.heads_bind hn
  error := h.error_bind hn hclear
  ok hc hok hdrops := by
    obtain ⟨a, e, hx, hnext⟩ := Rule.bind_eq_ok.mp hok
    rcases hdrops with hd | ⟨a', e', hok', hd⟩
    · exact (h.ok hc hx hd).mono (offset_le_of_ok hnext) fun _ hl => List.mem_append_left _ hl
    · obtain ⟨rfl, rfl⟩ := Prod.mk.inj (Except.ok.inj (hx.symm.trans hok'))
      exact ((hn a).ok (valid_of_ok hx hc) hnext hd).mono (Nat.le_refl _) fun _ hl => List.mem_append_right _ hl

/-- A script that reads something covers what was given up in front of it. -/
theorem Tidy.before (h : x.Tidy retry heads lasts) (hn : ∀ a, (next a).Tidy retry heads' lasts')
    (hg : ∀ a, (next a).Guarded retry) (hclear : ∀ label ∈ lasts, label ∉ heads') :
    (x >>= next).Tidy retry (heads ++ heads') lasts' where
  heads := h.heads_bind hn
  error := h.error_bind hn hclear
  ok hc hok hdrops := by
    obtain ⟨a, e, hx, hnext⟩ := Rule.bind_eq_ok.mp hok
    rcases hdrops with hd | ⟨a', e', hok', hd⟩
    · exact (h.ok hc hx hd).of_lt ((hg a).moves hnext)
    · obtain ⟨rfl, rfl⟩ := Prod.mk.inj (Except.ok.inj (hx.symm.trans hok'))
      exact (hn a).ok (valid_of_ok hx hc) hnext hd

/-- Behind a script that reads something no error stands at its start. -/
theorem Guarded.tidy_bind (hg : x.Guarded retry) (h : x.Tidy retry heads lasts)
    (hn : ∀ a, (next a).Tidy retry heads' lasts') (hclear : ∀ label ∈ lasts, label ∉ heads') :
    (x >>= next).Tidy retry heads (lasts ++ lasts') where
  heads herr := by
    rcases Rule.bind_eq_error.mp herr with hx | ⟨a, d, hx, hnext⟩
    · exact h.heads hx
    · rw [ParseError.labelsAt_eq_nil (((next a).moves_run.meets hnext).failsAt_of_lt (hg.moves hx))]
      exact List.nil_subset _
  error := h.error_bind hn hclear
  ok := (h.bind hn hclear).ok

theorem Tidy.map (h : x.Tidy retry heads lasts) (f : α → β) : (x >>= fun a => pure (f a)).Tidy retry heads lasts := by
  have hbind := h.bind (fun a => tidy_pure (f a)) fun _ _ => List.not_mem_nil
  rwa [List.append_nil, List.append_nil] at hbind

/-- A lexeme that comes first gives nothing up. -/
theorem tidy_lexeme_bind {kind : Lexeme.Kind α} (hg : (lexeme kind).Guarded retry)
    (hn : ∀ a, (next a).Tidy retry heads' lasts') : (lexeme kind >>= next).Tidy retry kind.labels lasts' :=
  hg.tidy_bind (tidy_lexeme kind) hn fun _ h => nomatch h

/-! ### Nesting and choice -/

theorem Tidy.nested (h : x.Tidy retry heads lasts) : (nested x).Tidy retry heads lasts where
  heads {c err} herr := by
    rcases Rule.nested_eq_error.mp herr with ⟨-, rfl⟩ | ⟨-, hx⟩
    · exact List.nil_subset _
    · have hheads := h.heads hx
      exact hheads
  ok hc hok hdrops := by
    obtain ⟨-, e, hx, rfl⟩ := Rule.nested_eq_ok.mp hok
    have hup := h.ok (hc.withDepth _) hx hdrops.2
    exact hup
  error hc herr hdrops hk := by
    rcases Rule.nested_eq_error.mp herr with ⟨-, rfl⟩ | ⟨-, hx⟩
    · cases hk
    · exact h.error (hc.withDepth _) hx hdrops.2 hk

theorem guarded_levels {x : Nat → Script α} (h : ∀ n, (x n).Guarded retry) : (levels x).Guarded retry where
  moves hok := (h _).moves hok
  clear herr hfails hdrops := (h _).clear herr hfails hdrops

theorem tidy_levels {x : Nat → Script α} (h : ∀ n, (x n).Tidy retry heads lasts) : (levels x).Tidy retry heads lasts where
  heads herr := (h _).heads herr
  ok hc hok hdrops := (h _).ok hc hok hdrops
  error hc herr hdrops hk := (h _).error hc herr hdrops hk

section Choice

variable {ι : Type} {forms : List ι} {form : ι → Script α}

/-- What a choice gives up is given up by a form that the choice comes to. -/
theorem form_of_drops (hs : s.Committed) (hg : ∀ f, (form f).Guarded s.retry)
    (h : (choice forms form).Drops s.retry c dropped) :
    ∃ f, (form f).Drops s.retry c dropped ∧ (choice forms form).run s.retry c = (form f).run s.retry c := by
  obtain ⟨before, f, after, rfl, hbefore, hdrops⟩ := h
  refine ⟨f, hdrops, ?_⟩
  rw [run_choice, List.map_append, List.map_cons]
  refine Rule.choice_of_tried (fun other hm => ?_) fun ⟨err, herr, hretry⟩ => ?_
  · obtain ⟨g, hg, rfl⟩ := List.mem_map.mp hm
    exact hbefore g hg
  · rw [hs] at hretry
    exact (hg f).clear herr hretry hdrops

theorem guarded_choice (hs : s.Committed) (hg : ∀ f, (form f).Guarded s.retry) :
    (choice forms form).Guarded s.retry where
  moves hok := by
    obtain ⟨rule, hm, hr⟩ := Rule.choice_eq_ok hok
    obtain ⟨f, -, rfl⟩ := List.mem_map.mp hm
    exact (hg f).moves hr
  clear herr hfails hdrops := by
    obtain ⟨f, hd, heq⟩ := form_of_drops hs hg hdrops
    exact (hg f).clear (heq.symm.trans herr) hfails hd

theorem tidy_choice (hs : s.Committed) (hne : forms ≠ []) (hg : ∀ f, (form f).Guarded s.retry)
    (h : ∀ f, (form f).Tidy s.retry heads lasts) : (choice forms form).Tidy s.retry heads lasts where
  heads {c err} herr := by
    have hrules : forms.map (fun f => (form f).run s.retry) ≠ [] := fun hnil => hne (List.map_eq_nil_iff.mp hnil)
    refine Rule.of_choice_eq_error_of_ne_nil (P := fun err => err.labelsAt c.offset ⊆ heads) hrules (fun rule hm err hr => ?_)
      (fun ha hb => ?_) herr
    · obtain ⟨f, -, rfl⟩ := List.mem_map.mp hm
      exact (h f).heads hr
    · exact fun label hm => (List.mem_append.mp (ParseError.labelsAt_merge_subset _ _ _ hm)).elim (@ha label) (@hb label)
  ok hc hok hdrops := by
    obtain ⟨f, hd, heq⟩ := form_of_drops hs hg hdrops
    exact (h f).ok hc (heq.symm.trans hok) hd
  error hc herr hdrops hk := by
    obtain ⟨f, hd, heq⟩ := form_of_drops hs hg hdrops
    exact (h f).error hc (heq.symm.trans herr) hd hk

end Choice

/-! ### Optional parts and repetition -/

/-- The script gives the error up, or fails with it so that something else is tried. -/
def Attempts (retry : Retry) (x : Script α) (c : Cursor) (dropped : ParseError) : Prop :=
  x.Drops retry c dropped ∨ x.run retry c = .error dropped ∧ retry dropped c.offset = true

theorem Tidy.attempt_ok (h : x.Tidy retry heads lasts) (hc : c.Valid) {a : α} (hok : x.run retry c = .ok (a, d))
    (hd : x.Attempts retry c dropped) : dropped.UpTo d.offset (· ∈ lasts) := by
  rcases hd with hd | ⟨herr, -⟩
  · exact h.ok hc hok hd
  · cases hok.symm.trans herr

theorem Tidy.attempt_yields (hs : s.Committed) (hg : x.Guarded s.retry) (h : x.Tidy s.retry heads lasts)
    (hy : Rule.Yields s.retry (x.run s.retry) c) (hd : x.Attempts s.retry c dropped) : dropped.UpTo c.offset (· ∈ heads) := by
  obtain ⟨err, herr, hretry⟩ := hy
  rw [hs] at hretry
  rcases hd with hd | ⟨herr', -⟩
  · exact absurd hd (hg.clear herr hretry)
  · obtain rfl := Except.error.inj (herr.symm.trans herr')
    exact ParseError.upTo_of_failsAt hretry fun _ hm => h.heads herr hm

theorem Tidy.attempt_error (h : x.Tidy retry heads lasts) (hc : c.Valid) (herr : x.run retry c = .error err)
    (hretry : retry err c.offset = false) (hd : x.Attempts retry c dropped) (hk : err.failsAt k = true) :
    dropped.UpTo k (· ∉ err.labelsAt k) := by
  rcases hd with hd | ⟨herr', hretry'⟩
  · exact h.error hc herr hd hk
  · obtain rfl := Except.error.inj (herr.symm.trans herr')
    rw [hretry] at hretry'
    cases hretry'

theorem tidy_maybe (hs : s.Committed) (hg : x.Guarded s.retry) (h : x.Tidy s.retry heads lasts) :
    (maybe x).Tidy s.retry [] (heads ++ lasts) where
  heads herr := by
    have hfails := (Rule.maybe_eq_error.mp herr).2
    rw [hs] at hfails
    rw [ParseError.labelsAt_eq_nil hfails]
    exact List.nil_subset _
  ok hc hok hd := by
    rcases Rule.maybe_eq_ok.mp hok with ⟨a, -, hx⟩ | ⟨-, rfl, hy⟩
    · exact (h.attempt_ok hc hx hd).mono (Nat.le_refl _) fun _ hl => List.mem_append_right _ hl
    · exact (h.attempt_yields hs hg hy hd).mono (Nat.le_refl _) fun _ hl => List.mem_append_left _ hl
  error hc herr hd hk := by
    obtain ⟨hx, hretry⟩ := Rule.maybe_eq_error.mp herr
    exact h.attempt_error hc hx hretry hd hk

theorem yields_of_stops (hg : x.Guarded retry) (hc : c.Valid) (h : Rule.Stops retry (x.run retry) c) :
    Rule.Yields retry (x.run retry) c := by
  rcases h with ⟨a, d, hx, hstill⟩ | hy
  · have hlt := hg.moves hx
    obtain ⟨text, hr⟩ := x.moves_run.reads hx
    refine absurd (hr.left_lt hc ?_) hstill
    rintro rfl
    obtain rfl := hr.unique (.refl c)
    exact absurd hlt (Nat.lt_irrefl _)
  · exact hy

theorem valid_of_run {as : List α} (h : Rule.Run (x.run retry) c as d) (hc : c.Valid) : d.Valid := by
  obtain ⟨text, hr⟩ := x.moves_run.run h
  exact hr.valid hc

/-- An item that was read leaves nothing behind the end of the run. -/
theorem Tidy.upTo_of_run (h : x.Tidy retry heads lasts) (he : e.Valid) {a : α} {f : Cursor} {cs : List α}
    (hx : x.run retry e = .ok (a, f)) (hmore : Rule.Run (x.run retry) f cs d) (hd : x.Attempts retry e dropped) :
    dropped.UpTo d.offset (· ∈ lasts) := by
  obtain ⟨text, hr⟩ := x.moves_run.run hmore
  exact (h.attempt_ok he hx hd).mono hr.offset_le fun _ => id

theorem tidy_many (hs : s.Committed) (hg : x.Guarded s.retry) (h : x.Tidy s.retry heads lasts) :
    (many x).Tidy s.retry [] (lasts ++ heads) where
  heads {c err} herr := by
    obtain ⟨as, d, hrun, hx, hfails⟩ := Rule.many_eq_error.mp herr
    obtain ⟨text, hr⟩ := x.moves_run.run hrun
    suffices hnone : err.failsAt c.offset = false by
      rw [ParseError.labelsAt_eq_nil hnone]
      exact List.nil_subset _
    rw [hs] at hfails
    rcases Nat.lt_or_eq_of_le hr.offset_le with hlt | heq
    · exact (x.moves_run.meets hx).failsAt_of_lt hlt
    · rwa [heq]
  ok {c d bs dropped} hc hok hdrops := by
    obtain ⟨hrun, hstops⟩ := Rule.many_eq_ok_iff.mp hok
    have hy := yields_of_stops hg (valid_of_run hrun hc) hstops
    obtain ⟨as, e, hrun', hd⟩ := hdrops
    have hend : ∀ r, x.run s.retry d ≠ .ok r := by
      obtain ⟨err, herr, -⟩ := hy
      exact fun r hr => nomatch hr.symm.trans herr
    rcases hrun'.reaches hrun hend with rfl | ⟨a, f, cs, hx, hmore⟩
    · exact (h.attempt_yields hs hg hy hd).mono (Nat.le_refl _) fun _ hl => List.mem_append_right _ hl
    · exact (h.upTo_of_run (valid_of_run hrun' hc) hx hmore hd).mono (Nat.le_refl _) fun _ hl => List.mem_append_left _ hl
  error {c err dropped k} hc herr hdrops hk := by
    obtain ⟨bs, d, hrun, hx, hretry⟩ := Rule.many_eq_error.mp herr
    obtain ⟨as, e, hrun', hd⟩ := hdrops
    rcases hrun'.reaches hrun fun r hr => nomatch hr.symm.trans hx with rfl | ⟨a, f, cs, hf, hmore⟩
    · exact h.attempt_error (valid_of_run hrun hc) hx hretry hd hk
    · -- the error is no retry, so it stands behind all items that were read
      have hup := h.upTo_of_run (valid_of_run hrun' hc) hf hmore hd
      rw [hs] at hretry
      rcases Nat.lt_or_eq_of_le ((x.moves_run.meets hx).offset_le_of_failsAt hk) with hlt | rfl
      · exact hup.of_lt hlt
      · rw [hk] at hretry
        cases hretry

end Script

end RequestDoc

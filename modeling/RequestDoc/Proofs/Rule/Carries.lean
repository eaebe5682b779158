import RequestDoc.Proofs.Cursor.Placement
import RequestDoc.Proofs.Rule.Dispatch

/-!
Rules in placed texts. A rule is carried to another one if what it comes to at a cursor, the other one comes to
at the counterpart of the cursor, as far as that is settled. Lexemes are carried, and every way of putting rules
together by a strategy that commits keeps it.
-/

namespace RequestDoc

variable {α β γ : Type} {p : Placement} {s : Strategy} {c d : Cursor} {err : ParseError}

open Grammar

/-- The characters of a keyword but the last one, and those of a mark, are no place where a text is settled. -/
theorem Token.continuesWord_of_mem_dropLast (t : Token) :
    ∀ x ∈ t.text.toList.dropLast, Character.continuesWord x = true := by
  have hall : t.text.toList.dropLast.all Character.continuesWord = true := by cases t <;> decide
  exact List.all_eq_true.mp hall

namespace Rule

/-- What the first rule comes to at a cursor, the second one comes to at the counterpart of the cursor, with the
value moved as the place is. -/
structure Carries (p : Placement) (f : α → β) (rule : Rule α) (rule' : Rule β) : Prop where
  moves : rule.Moves
  ok : ∀ {c d : Cursor} {a : α}, p.Fits c → rule c = .ok (a, d) → p.Sealed d.rest →
    rule' (p.cursor c) = .ok (f a, p.cursor d)
  error : ∀ {c : Cursor} {err : ParseError}, p.Fits c → rule c = .error err → p.Settles c err →
    rule' (p.cursor c) = .error (err.shift p.bytes p.start)

/-! ### Lexemes -/

theorem nameEnds_cursor {word : List Char} (h : c.Passes word d) (hd : p.Sealed d.rest)
    (hends : NameEnds (c.rest.drop word.length)) : NameEnds ((p.cursor c).rest.drop word.length) := by
  obtain ⟨⟨rest, hr⟩, rfl⟩ := h
  have hpast : (c.past word).rest = rest := Cursor.rest_past hr
  have hsealed : p.Sealed rest := hpast ▸ hd.of_reads (Cursor.reads_skipBlanks (c.past word))
  rw [hr, List.drop_left] at hends
  show NameEnds ((c.rest ++ p.tail).drop word.length)
  rw [hr, List.append_assoc, List.drop_left]
  intro x hx
  rw [hsealed.head?_append] at hx
  exact hends x hx

/-- A token is not completed by what stands behind a text. -/
theorem token_of_cursor {t : Token} (hsealed : p.Sealed c.rest) (h : Lexeme.token t (p.cursor c) = .ok ((), d)) :
    ∃ e, Lexeme.token t c = .ok ((), e) := by
  obtain ⟨⟨⟨rest, hr⟩, -⟩, hends⟩ := Lexeme.token_eq_ok_iff.mp h
  have hrest : c.rest ++ p.tail = t.text.toList ++ rest := hr
  have hwhole : ∀ more, c.rest = t.text.toList ++ more → ∃ e, Lexeme.token t c = .ok ((), e) := by
    intro more hmore
    refine ⟨_, Lexeme.token_eq_ok_iff.mpr ⟨⟨⟨more, hmore⟩, rfl⟩, fun hk x hx => hends hk x ?_⟩⟩
    rw [hmore, List.drop_left] at hx
    show ((c.rest ++ p.tail).drop _).head? = some x
    rw [hmore, List.append_assoc, List.drop_left, List.head?_append, hx, Option.some_or]
  rcases List.append_eq_append_iff.mp hrest with ⟨missing, hspelling, htail⟩ | ⟨more, hmore, -⟩
  · cases missing with
    | nil => exact hwhole [] (by rw [hspelling, List.append_nil, List.append_nil])
    | cons y missing =>
      -- what is left is a proper part of the spelling, so nothing in it settles the text
      rcases hsealed with hnil | ⟨x, hx, hw⟩
      · rw [hnil] at htail
        cases htail
      · have hmem : x ∈ t.text.toList.dropLast := by
          rw [hspelling, List.dropLast_append_of_ne_nil (List.cons_ne_nil y missing)]
          exact List.mem_append_left _ hx
        rw [t.continuesWord_of_mem_dropLast x hmem] at hw
        cases hw
  · exact hwhole more hmore

theorem carries_token (t : Token) : (token t).Carries p id (token t) where
  moves := moves_token t
  ok hc h hd := by
    obtain ⟨hp, hends⟩ := Lexeme.token_eq_ok_iff.mp (token_eq_ok.mp h)
    exact token_eq_ok.mpr (Lexeme.token_eq_ok_iff.mpr
      ⟨Placement.passes_cursor hc.inner hp hd, fun hk => nameEnds_cursor hp hd (hends hk)⟩)
  error {c err} hc h hset := by
    have hsealed := hset.sealed_of_meets ((moves_token t).meets h)
    obtain ⟨m, ht, rfl⟩ := lexeme_eq_error.mp h
    refine lexeme_eq_error.mpr ⟨(p.cursor c).mismatch t.label, ?_, ?_⟩
    · cases ht' : Lexeme.token t (p.cursor c) with
      | error m' => rw [Lexeme.token_eq_error ht']
      | ok r =>
        obtain ⟨⟨⟩, d⟩ := r
        obtain ⟨e, he⟩ := token_of_cursor hsealed ht'
        cases ht.symm.trans he
    · rw [Lexeme.token_eq_error ht]
      rfl

theorem carries_tokenIf (t : Token) : (tokenIf t).Carries p id (tokenIf t) where
  moves := moves_tokenIf t
  ok {c d b} hc h hd := by
    rcases tokenIf_eq_ok.mp h with ⟨rfl, ht⟩ | ⟨rfl, rfl, m, ht⟩
    · have ht' : token t (p.cursor c) = .ok ((), p.cursor d) := (carries_token t).ok hc (token_eq_ok.mpr ht) hd
      exact tokenIf_eq_ok.mpr (Or.inl ⟨rfl, token_eq_ok.mp ht'⟩)
    · refine tokenIf_eq_ok.mpr (Or.inr ⟨rfl, rfl, ?_⟩)
      have herr : token t d = .error (.ofMismatch m) := lexeme_eq_error.mpr ⟨m, ht, rfl⟩
      have hstart : (ParseError.ofMismatch m).failsAt d.offset = true := by
        rw [Lexeme.token_eq_error ht]
        exact beq_self_eq_true d.offset
      have herr' := (carries_token t).error hc herr (Placement.settles_of_failsAt hd hstart)
      obtain ⟨m', ht', -⟩ := lexeme_eq_error.mp herr'
      exact ⟨m', ht'⟩
  error _ h _ := by
    unfold tokenIf at h
    split at h <;> cases h

theorem carries_name : (lexeme Lexeme.name).Carries p id (lexeme Lexeme.name) where
  moves := moves_name
  ok hc h hd := by
    obtain ⟨hname, hp, hends⟩ := Lexeme.name_eq_ok_iff.mp (lexeme_eq_ok.mp h)
    exact lexeme_eq_ok.mpr (Lexeme.name_eq_ok_iff.mpr
      ⟨hname, Placement.passes_cursor hc.inner hp hd, nameEnds_cursor hp hd hends⟩)
  error {c err} hc h hset := by
    have hsealed := hset.sealed_of_meets (moves_name.meets h)
    obtain ⟨m, hn, rfl⟩ := lexeme_eq_error.mp h
    refine lexeme_eq_error.mpr ⟨(p.cursor c).mismatch "identifier", ?_, ?_⟩
    · have hhead : (p.cursor c).rest.head? = c.rest.head? := hsealed.head?_append
      simp only [Lexeme.name] at hn ⊢
      split at hn
      · cases hn
      next hstart => rw [hhead, if_neg hstart]
    · rw [Lexeme.name_eq_error hn]
      rfl

theorem scan?_cursor (hsealed : p.Sealed c.rest) :
    Numeral.scan? (p.cursor c).rest = (Numeral.scan? c.rest).map fun (n, rest) => (n, rest ++ p.tail) := by
  rcases hsealed with h | h
  · show Numeral.scan? (c.rest ++ p.tail) = _
    rw [h, List.append_nil]
    cases Numeral.scan? c.rest with
    | none => rfl
    | some r => exact congrArg some (Prod.ext rfl (List.append_nil r.2).symm)
  · exact Numeral.scan?_settled h p.tail

theorem carries_number : (lexeme Lexeme.number).Carries p id (lexeme Lexeme.number) where
  moves := moves_number
  ok {c d x} hc h hd := by
    obtain ⟨text, hr⟩ := moves_number.reads h
    have hscan := scan?_cursor (hd.of_reads hr)
    have h := lexeme_eq_ok.mp h
    refine lexeme_eq_ok.mpr ?_
    unfold Lexeme.number at h ⊢
    rw [hscan]
    split at h
    next n rest hn =>
      obtain ⟨rfl, rfl⟩ := Prod.mk.inj (Except.ok.inj h)
      have hp : c.Passes n.text (c.past n.text).skipBlanks := ⟨⟨rest, (Numeral.scan?_eq_some hn).2⟩, rfl⟩
      rw [hn, (Placement.passes_cursor hc.inner hp hd).2]
      rfl
    · cases h
  error {c err} hc h hset := by
    have hscan := scan?_cursor (hset.sealed_of_meets (moves_number.meets h))
    obtain ⟨m, hn, rfl⟩ := lexeme_eq_error.mp h
    refine lexeme_eq_error.mpr ⟨(p.cursor c).mismatch "number", ?_, ?_⟩
    · unfold Lexeme.number at hn ⊢
      rw [hscan]
      split at hn
      · cases hn
      next hnone =>
        rw [hnone]
        rfl
    · rw [Lexeme.number_eq_error hn]
      rfl

/-- A quoted text is scanned alike if it is closed or its fault stands in front of a sealed text. -/
theorem scan_cursor (h : ∀ fault read rest, Quoted.scan c.rest = .broken fault read → c.rest = read ++ rest → p.Sealed rest) :
    Quoted.scan (p.cursor c).rest = Quoted.scan c.rest := by
  show Quoted.scan (c.rest ++ p.tail) = _
  by_cases htail : p.tail = []
  · rw [htail, List.append_nil]
  · exact Quoted.scan_settled (fun fault read rest hbroken hrest => (h fault read rest hbroken hrest).resolve_left htail) p.tail

theorem carries_quoted : (lexeme Lexeme.quoted).Carries p id (lexeme Lexeme.quoted) where
  moves := moves_quoted
  ok {c d x} hc h hd := by
    have h := lexeme_eq_ok.mp h
    refine lexeme_eq_ok.mpr ?_
    unfold Lexeme.quoted at h ⊢
    split at h
    next text read hq =>
      obtain ⟨rfl, rfl⟩ := Prod.mk.inj (Except.ok.inj h)
      obtain ⟨raw, rest, -, -, hrest⟩ := Quoted.scan_eq_closed hq
      have hp : c.Passes read (c.past read).skipBlanks := ⟨⟨rest, hrest⟩, rfl⟩
      have hscan : Quoted.scan (p.cursor c).rest = Quoted.scan c.rest := scan_cursor fun _ _ _ hbroken _ =>
        nomatch hq.symm.trans hbroken
      rw [hscan, hq, (Placement.passes_cursor hc.inner hp hd).2]
      rfl
    · cases h
  error {c err} hc h hset := by
    obtain ⟨m, hq, rfl⟩ := lexeme_eq_error.mp h
    unfold Lexeme.quoted at hq
    split at hq
    · cases hq
    next fault read hbroken =>
      obtain rfl := Except.error.inj hq
      obtain ⟨rest, hrest⟩ := Lexeme.scan_eq_broken hbroken
      have hscan : Quoted.scan (p.cursor c).rest = Quoted.scan c.rest := by
        refine scan_cursor fun fault' read' rest' hbroken' hrest' => ?_
        obtain ⟨-, rfl⟩ := Quoted.Outcome.broken.inj (hbroken.symm.trans hbroken')
        -- the error stands behind what was read up to the fault
        have hsealed := hset.sealed (.of_rest hrest') (ParseError.StandsAt.mismatch (d := c.past read) (.one fault.label))
        rwa [Cursor.rest_past hrest'] at hsealed
      refine lexeme_eq_error.mpr ⟨((p.cursor c).past read).mismatch fault.label, ?_, ?_⟩
      · unfold Lexeme.quoted
        rw [hscan, hbroken]
      · rw [Placement.cursor_past hc.inner hrest.symm]
        rfl

theorem carries_endOfInput {p : Placement} (hp : p.tail = []) :
    (lexeme Lexeme.endOfInput).Carries p id (lexeme Lexeme.endOfInput) := by
  have hskip : ∀ {c}, p.Fits c → (p.cursor c).skipBlanks = p.cursor c.skipBlanks :=
    fun hc => Placement.cursor_skipBlanks hc.inner (Or.inl hp)
  have hend : ∀ c, (p.cursor c).atEnd = c.atEnd := fun c => by simp [Cursor.atEnd, Placement.cursor, hp]
  refine ⟨moves_endOfInput, fun hc h _ => ?_, fun hc h _ => ?_⟩
  · have h := lexeme_eq_ok.mp h
    refine lexeme_eq_ok.mpr ?_
    simp only [Lexeme.endOfInput, hskip hc, hend] at h ⊢
    split at h
    next hatEnd =>
      obtain ⟨rfl, rfl⟩ := Prod.mk.inj (Except.ok.inj h)
      rw [if_pos hatEnd]
    · cases h
  · obtain ⟨m, hm, rfl⟩ := lexeme_eq_error.mp h
    refine lexeme_eq_error.mpr ?_
    simp only [Lexeme.endOfInput, hskip hc, hend] at hm ⊢
    split at hm
    · cases hm
    next hatEnd =>
      obtain rfl := Except.error.inj hm
      exact ⟨_, if_neg hatEnd, rfl⟩

theorem carries_position : position.Carries p (·.shift p.start) position where
  moves := moves_position
  ok _ h _ := by
    obtain ⟨rfl, rfl⟩ := Prod.mk.inj (Except.ok.inj h)
    rfl
  error _ h _ := nomatch h

/-! ### Ways of putting rules together -/

theorem carries_pure {f : α → β} {a : α} {b : β} (h : f a = b) : (pure a : Rule α).Carries p f (pure b) where
  moves := moves_pure a
  ok _ h' _ := by
    obtain ⟨rfl, rfl⟩ := Prod.mk.inj (Except.ok.inj h')
    rw [← h]
    rfl
  error _ h _ := nomatch h

theorem Carries.bind {δ : Type} {f : α → β} {g : γ → δ} {rule : Rule α} {rule' : Rule β} {next : α → Rule γ}
    {next' : β → Rule δ} (h : rule.Carries p f rule') (hn : ∀ a, (next a).Carries p g (next' (f a))) :
    (rule >>= next).Carries p g (rule' >>= next') where
  moves := h.moves.bind fun a => (hn a).moves
  ok hc hok hd := by
    obtain ⟨a, e, hr, hrest⟩ := bind_eq_ok.mp hok
    obtain ⟨text, h1⟩ := h.moves.reads hr
    obtain ⟨more, h2⟩ := (hn a).moves.reads hrest
    rw [bind_of_ok (h.ok hc hr (hd.of_reads h2))]
    exact (hn a).ok (hc.of_reads h1) hrest hd
  error hc herr hset := by
    rcases bind_eq_error.mp herr with hr | ⟨a, e, hr, hrest⟩
    · exact bind_of_error (h.error hc hr hset)
    · obtain ⟨text, h1⟩ := h.moves.reads hr
      have hset' := hset.of_reads h1
      rw [bind_of_ok (h.ok hc hr (hset'.sealed_of_meets ((hn a).moves.meets hrest)))]
      exact (hn a).error (hc.of_reads h1) hrest hset'

theorem carries_firstOf (hs : s.Committed) {φ : Type} {f : α → β} {rule : φ → Rule α} {rule' : φ → Rule β}
    (h : ∀ form, (rule form).Carries p f (rule' form)) (hc : p.Fits c) (hsealed : p.Sealed c.rest) (forms : List φ)
    (failure : Option ParseError) :
    (∀ a d, firstOf s.retry failure (forms.map rule) c = .ok (a, d) → p.Sealed d.rest →
      firstOf s.retry (failure.map (·.shift p.bytes p.start)) (forms.map rule') (p.cursor c) = .ok (f a, p.cursor d)) ∧
    (∀ err, firstOf s.retry failure (forms.map rule) c = .error err → p.Settles c err →
      firstOf s.retry (failure.map (·.shift p.bytes p.start)) (forms.map rule') (p.cursor c) =
        .error (err.shift p.bytes p.start)) := by
  -- the error of the forms before is moved as the errors of the others are
  induction forms generalizing failure with
  | nil =>
    refine ⟨fun a d hok _ => (by cases hok), fun err herr _ => ?_⟩
    obtain rfl := Except.error.inj herr
    cases failure <;> rfl
  | cons form forms ih =>
    rw [List.map_cons, List.map_cons, firstOf, firstOf]
    cases hr : rule form c with
    | ok r =>
      refine ⟨fun a d hok hd => ?_, fun err herr _ => (by cases herr)⟩
      obtain rfl := Except.ok.inj hok
      rw [(h form).ok hc hr hd]
    | error err =>
      have hretry : ∀ err' : ParseError, s.retry (err'.shift p.bytes p.start) (p.cursor c).offset = s.retry err' c.offset := by
        intro err'
        rw [hs, hs]
        exact err'.failsAt_shift p.bytes c.offset p.start
      simp only
      cases hf : s.retry err c.offset with
      | true =>
        rw [hs] at hf
        rw [(h form).error hc hr (Placement.settles_of_failsAt hsealed hf)]
        simp only [hretry, hs err c.offset, hf, if_true]
        have hnext := ih (some ((failure.map (·.merge err)).getD err))
        cases failure with
        | none => exact hnext
        | some before =>
          simpa only [Option.map_some, Option.getD_some, ParseError.merge_shift] using hnext
      | false =>
        refine ⟨fun a d hok _ => (by cases hok), fun err' herr hset => ?_⟩
        obtain rfl := Except.error.inj herr
        rw [(h form).error hc hr hset]
        simp only [hretry, hf, Bool.false_eq_true, if_false]

theorem carries_choice (hs : s.Committed) {φ : Type} {f : α → β} {rule : φ → Rule α} {rule' : φ → Rule β}
    (h : ∀ form, (rule form).Carries p f (rule' form)) (forms : List φ) :
    (choice s.retry (forms.map rule)).Carries p f (choice s.retry (forms.map rule')) := by
  have hmoves : (choice s.retry (forms.map rule)).Moves := by
    refine moves_choice fun r hr => ?_
    obtain ⟨form, -, rfl⟩ := List.mem_map.mp hr
    exact (h form).moves
  refine ⟨hmoves, fun hc hok hd => ?_, fun hc herr hset => ?_⟩
  · obtain ⟨text, hr⟩ := hmoves.reads hok
    exact (carries_firstOf hs h hc (hd.of_reads hr) forms none).1 _ _ hok hd
  · exact (carries_firstOf hs h hc (hset.sealed_of_meets (hmoves.meets herr)) forms none).2 _ herr hset

theorem Carries.yields (hs : s.Committed) {f : α → β} {rule : Rule α} {rule' : Rule β} (h : rule.Carries p f rule')
    (hc : p.Fits c) (hy : Yields s.retry rule c) (hd : p.Sealed c.rest) : Yields s.retry rule' (p.cursor c) := by
  obtain ⟨err, hr, hf⟩ := hy
  rw [hs] at hf
  refine ⟨_, h.error hc hr (Placement.settles_of_failsAt hd hf), ?_⟩
  rw [hs]
  exact (err.failsAt_shift p.bytes c.offset p.start).trans hf

theorem Carries.maybe (hs : s.Committed) {f : α → β} {rule : Rule α} {rule' : Rule β} (h : rule.Carries p f rule') :
    (maybe s.retry rule).Carries p (Option.map f) (maybe s.retry rule') where
  moves := h.moves.maybe
  ok hc hok hd := by
    rcases maybe_eq_ok.mp hok with ⟨a, rfl, hr⟩ | ⟨rfl, rfl, hy⟩
    · exact maybe_eq_ok.mpr (Or.inl ⟨f a, rfl, h.ok hc hr hd⟩)
    · exact maybe_eq_ok.mpr (Or.inr ⟨rfl, rfl, h.yields hs hc hy hd⟩)
  error {c err} hc herr hset := by
    obtain ⟨hr, hretry⟩ := maybe_eq_error.mp herr
    refine maybe_eq_error.mpr ⟨h.error hc hr hset, ?_⟩
    rw [hs] at hretry ⊢
    exact (err.failsAt_shift p.bytes c.offset p.start).trans hretry

theorem Carries.run {f : α → β} {rule : Rule α} {rule' : Rule β} (h : rule.Carries p f rule') {as : List α}
    (hc : p.Fits c) (hrun : Run rule c as d) (hd : p.Sealed d.rest) :
    Run rule' (p.cursor c) (as.map f) (p.cursor d) := by
  induction hrun with
  | nil => exact .nil _
  | @cons c e d a as hr hlt hrest ih =>
    obtain ⟨text, h1⟩ := h.moves.reads hr
    obtain ⟨more, h2⟩ := h.moves.run hrest
    have he := hc.of_reads h1
    exact .cons (h.ok hc hr (hd.of_reads h2)) ((Placement.left_lt_iff hc he).mpr hlt) (ih he hd)

theorem Carries.stops (hs : s.Committed) {f : α → β} {rule : Rule α} {rule' : Rule β} (h : rule.Carries p f rule')
    (hc : p.Fits c) (hstops : Stops s.retry rule c) (hsealed : p.Sealed c.rest) : Stops s.retry rule' (p.cursor c) := by
  rcases hstops with ⟨a, d, hr, hstay⟩ | hy
  · -- an item that does not make less be left reads nothing, and is carried to one that does not either
    obtain ⟨text, h1⟩ := h.moves.reads hr
    cases text with
    | nil =>
      obtain rfl := h1.unique (.refl c)
      exact Or.inl ⟨f a, _, h.ok hc hr hsealed, Nat.lt_irrefl _⟩
    | cons x text => exact absurd (h1.left_lt hc.inner (List.cons_ne_nil x text)) hstay
  · exact Or.inr (h.yields hs hc hy hsealed)

theorem Carries.collectOk (hs : s.Committed) {f : α → β} {rule : Rule α} {rule' : Rule β} (h : rule.Carries p f rule')
    {as : List α} (hc : p.Fits c) (hcol : collect s.retry rule c = (as, .ok d)) (hd : p.Sealed d.rest) :
    collect s.retry rule' (p.cursor c) = (as.map f, .ok (p.cursor d)) := by
  obtain ⟨hrun, hstops⟩ := collect_eq_ok_iff.mp hcol
  obtain ⟨text, hr⟩ := h.moves.run hrun
  exact collect_eq_ok_iff.mpr ⟨h.run hc hrun hd, h.stops hs (hc.of_reads hr) hstops hd⟩

theorem Carries.collectError (hs : s.Committed) {f : α → β} {rule : Rule α} {rule' : Rule β}
    (h : rule.Carries p f rule') {as : List α} (hc : p.Fits c) (hcol : collect s.retry rule c = (as, .error err))
    (hset : p.Settles c err) :
    collect s.retry rule' (p.cursor c) = (as.map f, .error (err.shift p.bytes p.start)) := by
  obtain ⟨d, hrun, herr, hretry⟩ := collect_eq_error.mp hcol
  obtain ⟨text, hr⟩ := h.moves.run hrun
  have hset' := hset.of_reads hr
  have hd := hset'.sealed_of_meets (h.moves.meets herr)
  refine collect_eq_error.mpr ⟨_, h.run hc hrun hd, h.error (hc.of_reads hr) herr hset', ?_⟩
  rw [hs] at hretry ⊢
  exact (err.failsAt_shift p.bytes d.offset p.start).trans hretry

theorem Carries.many (hs : s.Committed) {f : α → β} {rule : Rule α} {rule' : Rule β} (h : rule.Carries p f rule') :
    (many s.retry rule).Carries p (List.map f) (many s.retry rule') where
  moves := h.moves.many
  ok hc hok hd := by
    have hcol := collect_eq_ok_iff.mpr (many_eq_ok_iff.mp hok)
    exact many_eq_ok_iff.mpr (collect_eq_ok_iff.mp (h.collectOk hs hc hcol hd))
  error hc herr hset := by
    obtain ⟨as, hend⟩ := many_eq_error.mp herr
    have hcol := collect_eq_error.mpr hend
    exact many_eq_error.mpr ⟨_, collect_eq_error.mp (h.collectError hs hc hcol hset)⟩

theorem Carries.sepBy (hs : s.Committed) {f : α → β} {item : Rule α} {item' : Rule β} (h : item.Carries p f item') :
    (sepBy s.retry item (token .comma)).Carries p (List.map f) (sepBy s.retry item' (token .comma)) := by
  refine (h.maybe hs).bind fun o => ?_
  cases o with
  | none => exact carries_pure rfl
  | some first =>
    have hfurther : (do token .comma; item).Carries p f (do token .comma; item') := (carries_token .comma).bind fun _ => h
    exact (hfurther.many hs).bind fun others => carries_pure rfl

theorem Carries.nested {f : α → β} {rule : Rule α} {rule' : Rule β} (h : rule.Carries p f rule') :
    (nested rule).Carries p f (nested rule') where
  moves := h.moves.nested
  ok {c d a} hc hok hd := by
    obtain ⟨hlt, e, hr, rfl⟩ := nested_eq_ok.mp hok
    exact nested_eq_ok.mpr ⟨Nat.lt_of_lt_of_le hlt (Nat.le_add_right ..), _, h.ok (hc.withDepth _) hr hd, rfl⟩
  error {c err} hc herr hset := by
    rcases nested_eq_error.mp herr with ⟨hle, rfl⟩ | ⟨hlt, hr⟩
    · have hmore := hset.limited rfl
      refine nested_eq_error.mpr (Or.inl ⟨?_, ?_⟩)
      · show c.depthLimit + p.more ≤ c.depth
        rwa [hmore]
      · show _ = ParseError.tooDeep (c.depthLimit + p.more) _
        rw [hmore]
        rfl
    · exact nested_eq_error.mpr (Or.inr
        ⟨Nat.lt_of_lt_of_le hlt (Nat.le_add_right ..), h.error (hc.withDepth _) hr (hset.withDepth _)⟩)

end Rule

end RequestDoc

import RequestDoc.Proofs.Lexeme.Quoted
import RequestDoc.Proofs.Number.Longest
import RequestDoc.Proofs.Rule.Dispatch
import RequestDoc.Proofs.Rule.Script

/-!
Rules are told by their first lexemes. A rule that starts with a lexeme refuses where that lexeme does not start, and
gets past it where it does: then it reads something, ends before no blank, and fails behind its start if it fails.
Whatever follows the lexeme keeps this, and a choice is told by the first lexemes of all its forms.
-/

namespace RequestDoc

variable {α β : Type} {retry : Retry} {s : Strategy} {c d : Cursor} {err : ParseError} {text : List Char}

/-! ### Lexemes that come first -/

/-- What a rule can start with. -/
inductive FirstLexeme where
  | number
  | name
  | quote
  | token (t : Token)
  deriving DecidableEq

/-- The lexeme starts the text: a numeral or a name, the quote that opens a quoted text, or a token, which is no part of
a longer word. -/
def FirstLexeme.Starts : FirstLexeme → List Char → Prop
  | number, text => ∃ n : Numeral, n.WellFormed ∧ n.text <+: text
  | name, text => ∃ name, IsName name ∧ name <+: text
  | quote, text => text.head? = some '"'
  | token t, text => if t.isKeyword then Grammar.KeywordStarts t text else t.text.toList <+: text

theorem IsName.ne_nil {cs : List Char} (h : IsName cs) : cs ≠ [] := by
  cases h
  exact List.cons_ne_nil _ _

/-- One of the lexemes starts the text. -/
def AnyStarts (firsts : List FirstLexeme) (text : List Char) : Prop :=
  ∃ first ∈ firsts, first.Starts text

theorem anyStarts_singleton {first : FirstLexeme} : AnyStarts [first] text ↔ first.Starts text :=
  ⟨fun ⟨_, hm, h⟩ => List.mem_singleton.mp hm ▸ h, fun h => ⟨first, List.mem_singleton_self first, h⟩⟩

namespace FirstLexeme

theorem starts_number_iff : number.Starts text ↔ ∃ r, Numeral.scan? text = some r := by
  constructor
  · rintro ⟨n, hn, more, rfl⟩
    obtain ⟨m, rest, hscan, -⟩ := Numeral.scan?_starts hn more
    exact ⟨_, hscan⟩
  · rintro ⟨⟨n, rest⟩, hscan⟩
    obtain ⟨hn, rfl⟩ := Numeral.scan?_eq_some hscan
    exact ⟨n, hn, rest, rfl⟩

theorem starts_name_iff : name.Starts text ↔ text.head?.any Character.startsName = true := by
  constructor
  · rintro ⟨_, ⟨hx, -⟩, rest, rfl⟩
    exact hx
  · intro h
    exact ⟨_, Lexeme.isName_takeWhile h, List.takeWhile_prefix _⟩

theorem starts_token_iff {t : Token} :
    (token t).Starts c.rest ↔ ∃ d, Lexeme.token t c = .ok ((), d) := by
  simp only [Starts]
  constructor
  · intro h
    split at h
    next hk =>
      obtain ⟨rest, hrest, hends⟩ := h
      refine ⟨_, Lexeme.token_eq_ok_iff.mpr ⟨⟨⟨rest, hrest⟩, rfl⟩, fun _ => ?_⟩⟩
      rwa [hrest, List.drop_left]
    next hk =>
      obtain ⟨rest, hrest⟩ := h
      exact ⟨_, Lexeme.token_eq_ok_iff.mpr ⟨⟨⟨rest, hrest.symm⟩, rfl⟩, fun h => absurd h hk⟩⟩
  · rintro ⟨d, h⟩
    obtain ⟨⟨⟨rest, hrest⟩, -⟩, hends⟩ := Lexeme.token_eq_ok_iff.mp h
    split
    next hk =>
      have hends := hends hk
      rw [hrest, List.drop_left] at hends
      exact ⟨rest, hrest, hends⟩
    · exact ⟨rest, hrest.symm⟩

end FirstLexeme

/-! ### Where rules end -/

theorem Lexeme.Kind.lands (kind : Kind α) {a : α} (h : kind.read c = .ok (a, d)) : Flush d.rest := by
  have hpasses : ∀ {word : List Char}, c.Passes word d → Flush d.rest := fun hp => by
    obtain ⟨_, -, -, hflush⟩ := hp.reads
    exact hflush
  cases kind with
  | token t => exact hpasses (Lexeme.token_eq_ok h)
  | name => exact hpasses (Lexeme.name_eq_ok h)
  | number =>
    obtain ⟨n, -, -, hp⟩ := Lexeme.number_eq_ok h
    exact hpasses hp
  | quoted =>
    obtain ⟨raw, -, hp⟩ := Lexeme.quoted_eq_ok h
    exact hpasses hp
  | endOfInput =>
    obtain ⟨-, hnil⟩ := Lexeme.endOfInput_eq_ok h
    rw [hnil]
    exact flush_nil

/-- Whatever is run from a cursor that stands before no blank ends at such a cursor. -/
theorem Script.lands_run (x : Script α) {a : α} (hc : Flush c.rest) (h : x.run retry c = .ok (a, d)) : Flush d.rest := by
  induction x generalizing c d with
  | lexeme kind => exact kind.lands (Rule.lexeme_eq_ok.mp h)
  | tokenIf t =>
    rcases Rule.tokenIf_eq_ok.mp h with ⟨-, ht⟩ | ⟨-, rfl, -⟩
    · exact (Lexeme.Kind.token t).lands ht
    · exact hc
  | position | pure a =>
    obtain ⟨-, rfl⟩ := Prod.mk.inj (Except.ok.inj h)
    exact hc
  | tooDeep => cases h
  | bind first next ihFirst ihNext =>
    obtain ⟨b, e, hfirst, hnext⟩ := Rule.bind_eq_ok.mp h
    exact ihNext b (ihFirst hc hfirst) hnext
  | choice forms form ih =>
    obtain ⟨rule, hm, hr⟩ := Rule.choice_eq_ok h
    obtain ⟨f, -, rfl⟩ := List.mem_map.mp hm
    exact ih f hc hr
  | maybe script ih =>
    rcases Rule.maybe_eq_ok.mp h with ⟨a, -, hr⟩ | ⟨-, rfl, -⟩
    · exact ih hc hr
    · exact hc
  | many script ih =>
    obtain ⟨hrun, -⟩ := Rule.many_eq_ok_iff.mp h
    clear h
    induction hrun with
    | nil => exact hc
    | cons hr _ _ ihRun => exact ihRun (ih hc hr)
  | nested script ih =>
    obtain ⟨-, e, hr, rfl⟩ := Rule.nested_eq_ok.mp h
    have hrest : Flush e.rest := ih (show Flush (c.withDepth (c.depth + 1)).rest from hc) hr
    exact hrest
  | levels script ih => exact ih _ hc h

namespace Rule

/-- The rule refuses where none of the lexemes starts. Where one does, it gets past its start: it reads something and ends
before no blank, or fails behind its start. -/
structure Told (firsts : List FirstLexeme) (rule : Rule α) : Prop where
  refuses : ∀ {c : Cursor}, ¬AnyStarts firsts c.rest → Refuses rule c
  ok : ∀ {c d : Cursor} {a : α}, rule c = .ok (a, d) → c.offset < d.offset ∧ Flush d.rest
  further : ∀ {c : Cursor} {err : ParseError}, AnyStarts firsts c.rest → rule c = .error err → err.failsAt c.offset = false

/-- A rule fails at its start exactly where none of its first lexemes starts. -/
theorem Told.failsAt_iff {firsts : List FirstLexeme} {rule : Rule α} (h : Told firsts rule) (herr : rule c = .error err) :
    err.failsAt c.offset = true ↔ ¬AnyStarts firsts c.rest := by
  constructor
  · intro hfails hstarts
    rw [h.further hstarts herr] at hfails
    cases hfails
  · intro hnone
    obtain ⟨expected, hr⟩ := h.refuses hnone
    obtain rfl := Except.error.inj (herr.symm.trans hr)
    exact beq_self_eq_true c.offset

/-! ### Single lexemes -/

theorem offset_lt_of_passes {word : List Char} (h : c.Passes word d) (hne : word ≠ []) : c.offset < d.offset := by
  obtain ⟨text, ⟨w, -, rfl⟩, hr, -⟩ := h.reads
  exact hr.offset_lt (List.append_ne_nil_of_left_ne_nil hne w)

theorem told_token (t : Token) : Told [.token t] (token t) where
  refuses {c} h := by
    cases ht : Lexeme.token t c with
    | error m =>
      rw [Lexeme.token_eq_error ht] at ht
      exact refuses_lexeme ht
    | ok r => exact absurd (anyStarts_singleton.mpr (FirstLexeme.starts_token_iff.mpr ⟨r.2, ht⟩)) h
  ok h := ⟨offset_lt_of_passes (Lexeme.token_eq_ok (token_eq_ok.mp h)) t.text_ne_nil,
    (Lexeme.Kind.token t).lands (token_eq_ok.mp h)⟩
  further h herr := by
    obtain ⟨d, ht⟩ := FirstLexeme.starts_token_iff.mp (anyStarts_singleton.mp h)
    have hok : token t _ = .ok ((), d) := token_eq_ok.mpr ht
    cases herr.symm.trans hok

theorem told_name : Told [.name] (lexeme Lexeme.name) where
  refuses h := by
    refine refuses_lexeme (Lexeme.name_refuses fun x hx => ?_)
    rw [anyStarts_singleton, FirstLexeme.starts_name_iff, hx] at h
    simpa using h
  ok h := by
    obtain ⟨hname, hp, -⟩ := Lexeme.name_eq_ok_iff.mp (lexeme_eq_ok.mp h)
    exact ⟨offset_lt_of_passes hp hname.ne_nil, Lexeme.Kind.name.lands (lexeme_eq_ok.mp h)⟩
  further h herr := by
    obtain ⟨m, hm, -⟩ := lexeme_eq_error.mp herr
    rw [anyStarts_singleton, FirstLexeme.starts_name_iff] at h
    simp only [Lexeme.name, h, if_true] at hm
    cases hm

theorem told_number : Told [.number] (lexeme Lexeme.number) where
  refuses {c} h := by
    rw [anyStarts_singleton, FirstLexeme.starts_number_iff] at h
    cases hscan : Numeral.scan? c.rest with
    | none =>
      have hnone : Lexeme.number c = .error (c.mismatch "number") := by simp only [Lexeme.number, hscan]
      exact refuses_lexeme hnone
    | some r => exact absurd ⟨r, hscan⟩ h
  ok h := by
    obtain ⟨n, hn, -, hp⟩ := Lexeme.number_eq_ok (lexeme_eq_ok.mp h)
    obtain ⟨x, xs, htext, -⟩ := Lexeme.head?_numeral hn
    exact ⟨offset_lt_of_passes hp (by rw [htext]; exact List.cons_ne_nil _ _),
      Lexeme.Kind.number.lands (lexeme_eq_ok.mp h)⟩
  further h herr := by
    obtain ⟨m, hm, -⟩ := lexeme_eq_error.mp herr
    obtain ⟨r, hscan⟩ := FirstLexeme.starts_number_iff.mp (anyStarts_singleton.mp h)
    simp only [Lexeme.number, hscan] at hm
    cases hm

/-- Behind its quote a quoted text fails behind its start. -/
theorem told_quoted : Told [.quote] (lexeme Lexeme.quoted) where
  refuses h := refuses_lexeme (Lexeme.quoted_refuses fun x hx heq => by
    subst heq
    exact h (anyStarts_singleton.mpr hx))
  ok h := by
    obtain ⟨raw, -, hp⟩ := Lexeme.quoted_eq_ok (lexeme_eq_ok.mp h)
    exact ⟨offset_lt_of_passes hp (List.cons_ne_nil _ _), Lexeme.Kind.quoted.lands (lexeme_eq_ok.mp h)⟩
  further {c err} h herr := by
    obtain ⟨m, hm, rfl⟩ := lexeme_eq_error.mp herr
    obtain ⟨fault, read, hdecode, rfl⟩ := ((Lexeme.decodes_quoted c).error m).mp hm
    have hbreaks := Quoted.decode_eq_broken_iff.mp hdecode
    have hread : ∃ more, read = '"' :: more := by
      generalize c.rest = text at hbreaks h
      cases hbreaks with
      | unopened hopen => exact absurd (anyStarts_singleton.mp h) hopen
      | unclosed => exact ⟨_, rfl⟩
      | behind => exact ⟨_, rfl⟩
    obtain ⟨more, rfl⟩ := hread
    simp only [ParseError.ofMismatch, Cursor.mismatch, ParseError.failsAt, beq_eq_false_iff_ne, Cursor.past]
    have := length_le_byteSize ('"' :: more)
    rw [List.length_cons] at this
    omega

/-! ### Sequence and choice -/

theorem Told.bind {firsts : List FirstLexeme} {x : Script α} (h : Told firsts (x.run retry)) (next : α → Script β) :
    Told firsts ((x >>= next).run retry) where
  refuses hc := (h.refuses hc).bind _
  ok hok := by
    obtain ⟨a, e, hx, hn⟩ := bind_eq_ok.mp hok
    obtain ⟨hlt, hflush⟩ := h.ok hx
    obtain ⟨text, hr⟩ := (next a).moves_run.reads hn
    exact ⟨Nat.lt_of_lt_of_le hlt hr.offset_le, (next a).lands_run hflush hn⟩
  further hstarts herr := by
    rcases bind_eq_error.mp herr with hx | ⟨a, e, hx, hn⟩
    · exact h.further hstarts hx
    · exact ((next a).moves_run.meets hn).failsAt_of_lt (h.ok hx).1

/-- Taking down the place makes no difference. -/
theorem told_placed {firsts : List FirstLexeme} {next : Position → Script β}
    (h : ∀ place, Told firsts ((next place).run retry)) : Told firsts ((Script.position >>= next).run retry) where
  refuses {c} hc := (h c.position).refuses hc
  ok {c _ _} hok := (h c.position).ok hok
  further {c _} hstarts herr := (h c.position).further hstarts herr

/-- A choice one of whose lexemes starts fails as one of its forms: the form of that lexeme would not let another one be
tried. -/
theorem form_of_choice_eq_error (hs : s.Committed) {ι : Type} {forms : List ι} {form : ι → Rule α}
    {firsts : ι → List FirstLexeme} (h : ∀ f, Told (firsts f) (form f)) (hstarts : AnyStarts (forms.flatMap firsts) c.rest)
    (herr : Rule.choice s.retry (forms.map form) c = .error err) :
    ∃ f ∈ forms, form f c = .error err ∧ err.failsAt c.offset = false := by
  rcases choice_eq_error herr with hall | ⟨rule, hm, hr, hretry⟩
  · obtain ⟨first, hm, hfirst⟩ := hstarts
    obtain ⟨f, hf, hm⟩ := List.mem_flatMap.mp hm
    obtain ⟨err', hr, hretry⟩ := hall _ (List.mem_map_of_mem hf)
    rw [hs, (h f).further ⟨first, hm, hfirst⟩ hr] at hretry
    cases hretry
  · obtain ⟨f, hf, rfl⟩ := List.mem_map.mp hm
    exact ⟨f, hf, hr, by rwa [hs] at hretry⟩

theorem Told.choice (hs : s.Committed) {ι : Type} {forms : List ι} {form : ι → Script α} {firsts : ι → List FirstLexeme}
    (h : ∀ f, Told (firsts f) ((form f).run s.retry)) :
    Told (forms.flatMap firsts) ((Script.choice forms form).run s.retry) where
  refuses hc := by
    refine refuses_choice fun rule hm => ?_
    obtain ⟨f, hf, rfl⟩ := List.mem_map.mp hm
    exact (h f).refuses fun ⟨first, hfirst, hstarts⟩ => hc ⟨first, List.mem_flatMap.mpr ⟨f, hf, hfirst⟩, hstarts⟩
  ok hok := by
    obtain ⟨rule, hm, hr⟩ := choice_eq_ok hok
    obtain ⟨f, -, rfl⟩ := List.mem_map.mp hm
    exact (h f).ok hr
  further hstarts herr := by
    obtain ⟨_, -, -, hfails⟩ := form_of_choice_eq_error hs h hstarts herr
    exact hfails

theorem told_levels {firsts : List FirstLexeme} {x : Nat → Script α}
    (h : ∀ levels, Told firsts ((x (levels + 1)).run retry)) : Told firsts ((Script.levels x).run retry) where
  refuses hc := (h _).refuses hc
  ok hok := (h _).ok hok
  further hstarts herr := (h _).further hstarts herr

end Rule

end RequestDoc

import RequestDoc.Proofs.Rule.Dispatch
import RequestDoc.Proofs.Text.Brackets

/-!
Rules nest as their texts do. What a rule reads closes the brackets that it opens, and no more of them are open in
it at once than the limit allows. A rule exceeds the limit exactly behind the first bracket of the text that does,
and says so at the next character that is no blank.
-/

namespace RequestDoc

open Nesting Grammar

variable {α β : Type} {s : Strategy} {c d : Cursor} {err : ParseError} {room : Nat}

/-- The text ahead of the cursor opens more brackets than the limit allows, and the place is that of the first
character behind the bracket that does so and the blanks that follow it. -/
def Cursor.Overruns (c : Cursor) (place : Position) : Prop :=
  ∃ front w d, c.Reads (front ++ w) d ∧ Blanks w ∧ Flush d.rest ∧ place = d.position ∧
    (State.mk .outside c.depth).overrun? c.depthLimit (front ++ w) = some front

/-- A reading of a text with closed brackets within the limit may go before an overrun. -/
theorem Cursor.Overruns.of_reads {place : Position} {text : List Char} {n : Nat} (h : d.Overruns place)
    (hr : c.Reads text d) (hn : Closed text n) (hle : c.depth + n ≤ c.depthLimit) : c.Overruns place := by
  obtain ⟨front, w, e, hreads, hw, hflush, hplace, hover⟩ := h
  have hafter := hn c.depth
  refine ⟨text ++ front, w, e, ?_, hw, hflush, hplace, ?_⟩
  · rw [List.append_assoc]
    exact hr.trans hreads
  · rw [hr.depth, hr.depthLimit] at hover
    rw [List.append_assoc, State.overrun?_append (by omega), hafter.1, hover]
    rfl

section Brackets

variable {x : Char} {w : List Char} (h : c.Reads ([x] ++ w) d) (hx : x = '[' ∨ x = '{') (hw : Blanks w)

include hx in
theorem Nesting.State.next_opening (level : Nat) : (State.mk .outside level).next x = ⟨.outside, level + 1⟩ := by
  rcases hx with rfl | rfl <;> simp [State.next, Side.next]

include h hx hw

/-- A bracket overruns a limit that is reached. -/
theorem Cursor.Reads.overruns (hd : Flush d.rest) (hfull : c.depthLimit ≤ c.depth) : c.Overruns d.position := by
  refine ⟨[x], w, d, h, hw, hd, rfl, ?_⟩
  rw [List.singleton_append, State.overrun?, State.next_opening hx, if_pos (Nat.lt_succ_of_le hfull)]

theorem Cursor.Overruns.in_brackets {place : Position} (hd : (d.withDepth (d.depth + 1)).Overruns place)
    (hlt : c.depth < c.depthLimit) : c.Overruns place := by
  obtain ⟨front, v, e, hr, hv, hflush, hplace, hover⟩ := hd
  have hblanks := (plain_blanks hw).closed (c.depth + 1)
  have hwithin : (State.mk .outside c.depth).deepest ([x] ++ w) ≤ c.depthLimit := by
    simp only [List.singleton_append, State.deepest, State.next_opening hx, hblanks.2]
    omega
  have hafter : (State.mk .outside c.depth).after ([x] ++ w) = ⟨.outside, c.depth + 1⟩ := by
    rw [List.singleton_append, State.after_cons, State.next_opening hx, hblanks.1]
  have hover : (State.mk .outside (d.depth + 1)).overrun? d.depthLimit (front ++ v) = some front := hover
  rw [h.depth, h.depthLimit] at hover
  refine ⟨[x] ++ w ++ front, v, e.withDepth d.depth, ?_, hv, hflush, hplace, ?_⟩
  · rw [List.append_assoc]
    exact h.trans hr.of_withDepth
  · rw [List.append_assoc, State.overrun?_append hwithin, hafter, hover]
    rfl

end Brackets

theorem ParseError.merge_eq_tooDeep {other : ParseError} {limit : Nat} {place : Position}
    (h : err.merge other = .tooDeep limit place) : err = .tooDeep limit place := by
  cases err with
  | mismatch =>
    cases other with
    | mismatch =>
      simp only [merge] at h
      split at h <;> cases h
    | _ => cases h
  | _ => exact h

namespace Rule

/-- The rule reads no brackets and comes to no limit. -/
structure Flat (rule : Rule α) : Prop where
  ok : ∀ {c d : Cursor} {a : α}, rule c = .ok (a, d) → ∃ text, c.Reads text d ∧ Closed text 0
  error : ∀ {c : Cursor} {err : ParseError}, rule c = .error err → err.isMismatch = true

/-- Where less than `room` brackets may still be opened, the rule reads texts whose brackets are closed and
within the limit, and exceeds the limit exactly where the text does. -/
structure Nests (room : Nat) (rule : Rule α) : Prop where
  ok : ∀ {c d : Cursor} {a : α}, c.depth ≤ c.depthLimit → c.depthLimit < c.depth + room → rule c = .ok (a, d) →
    ∃ text n, c.Reads text d ∧ Closed text n ∧ c.depth + n ≤ c.depthLimit
  tooDeep : ∀ {c : Cursor} {limit : Nat} {place : Position}, c.depth ≤ c.depthLimit → c.depthLimit < c.depth + room →
    rule c = .error (.tooDeep limit place) → c.Overruns place

theorem Nests.closed_text {rule : Rule α} (h : rule.Nests room) (hle : c.depth ≤ c.depthLimit)
    (hroom : c.depthLimit < c.depth + room) {a : α} (hok : rule c = .ok (a, d)) {text : List Char} (hr : c.Reads text d) :
    ∃ n, Closed text n ∧ c.depth + n ≤ c.depthLimit := by
  obtain ⟨text', n, hr', hn, hdepth⟩ := h.ok hle hroom hok
  obtain rfl := hr.text_unique hr'
  exact ⟨n, hn, hdepth⟩

theorem Flat.nests {rule : Rule α} (h : rule.Flat) : rule.Nests room where
  ok hle _ hok := by
    obtain ⟨text, hr, hn⟩ := h.ok hok
    exact ⟨text, 0, hr, hn, hle⟩
  tooDeep _ _ herr := nomatch h.error herr

/-! ### Lexemes -/

theorem plain_name {name : List Char} (h : IsName name) : Plain name := by
  have hplain : ∀ {x : Char}, Character.continuesName x = true → x ≠ '"' ∧ x ≠ '[' ∧ x ≠ '{' ∧ x ≠ ']' ∧ x ≠ '}' := by
    intro x hx
    refine ⟨?_, ?_, ?_, ?_, ?_⟩ <;> rintro rfl <;> exact absurd hx (by decide)
  cases h with
  | mk hx hxs =>
    intro y hy
    rcases List.mem_cons.mp hy with rfl | hy
    · exact hplain (Character.continuesName_of_startsName hx)
    · exact hplain (hxs y hy)

theorem flat_lexeme {read : Lexeme α}
    (h : ∀ {c d a}, read c = .ok (a, d) → ∃ word, Closed word 0 ∧ c.Passes word d) : (lexeme read).Flat where
  ok hok := by
    obtain ⟨word, hword, hp⟩ := h (lexeme_eq_ok.mp hok)
    obtain ⟨text, htext, hr, -⟩ := hp.reads
    exact ⟨text, hr, closed_spaced hword htext⟩
  error herr := by
    obtain ⟨m, -, rfl⟩ := lexeme_eq_error.mp herr
    rfl

theorem flat_token {t : Token} (h : Plain t.text.toList) : (token t).Flat :=
  flat_lexeme fun hok => ⟨_, h.closed, Lexeme.token_eq_ok hok⟩

theorem flat_tokenIf {t : Token} (h : Plain t.text.toList) : (tokenIf t).Flat where
  ok hok := by
    rcases tokenIf_eq_ok.mp hok with ⟨-, ht⟩ | ⟨-, rfl, -⟩
    · have ht : token t _ = .ok ((), _) := token_eq_ok.mpr ht
      exact (flat_token h).ok ht
    · exact ⟨[], .refl _, closed_nil⟩
  error herr := by
    unfold tokenIf at herr
    split at herr <;> cases herr

theorem flat_name : (lexeme Lexeme.name).Flat := by
  refine flat_lexeme fun hok => ?_
  obtain ⟨hname, hp, -⟩ := Lexeme.name_eq_ok_iff.mp hok
  exact ⟨_, (plain_name hname).closed, hp⟩

theorem flat_number : (lexeme Lexeme.number).Flat := by
  refine flat_lexeme fun hok => ?_
  obtain ⟨n, hn, -, hp⟩ := Lexeme.number_eq_ok hok
  exact ⟨_, (plain_numeral hn).closed, hp⟩

theorem flat_quoted : (lexeme Lexeme.quoted).Flat := by
  refine flat_lexeme fun hok => ?_
  obtain ⟨raw, hb, hp⟩ := Lexeme.quoted_eq_ok hok
  exact ⟨_, closed_quoted hb, hp⟩

/-! ### Ways of putting rules together -/

theorem flat_pure (a : α) : (pure a : Rule α).Flat where
  ok h := by
    obtain ⟨-, rfl⟩ := Prod.mk.inj (Except.ok.inj h)
    exact ⟨[], .refl _, closed_nil⟩
  error h := nomatch h

theorem flat_position : position.Flat where
  ok h := by
    obtain ⟨-, rfl⟩ := Prod.mk.inj (Except.ok.inj h)
    exact ⟨[], .refl _, closed_nil⟩
  error h := nomatch h

theorem Flat.bind {rule : Rule α} {next : α → Rule β} (h : rule.Flat) (hn : ∀ a, (next a).Flat) :
    (rule >>= next).Flat where
  ok hok := by
    obtain ⟨a, e, hr, hrest⟩ := bind_eq_ok.mp hok
    obtain ⟨first, h1, hfirst⟩ := h.ok hr
    obtain ⟨second, h2, hsecond⟩ := (hn a).ok hrest
    exact ⟨first ++ second, h1.trans h2, hfirst.append hsecond⟩
  error herr := by
    rcases bind_eq_error.mp herr with hr | ⟨a, e, -, hrest⟩
    · exact h.error hr
    · exact (hn a).error hrest

theorem Nests.bind {rule : Rule α} {next : α → Rule β} (h : rule.Nests room) (hn : ∀ a, (next a).Nests room) :
    (rule >>= next).Nests room where
  ok {c d b} hle hroom hok := by
    obtain ⟨a, e, hr, hrest⟩ := bind_eq_ok.mp hok
    obtain ⟨first, m, h1, hfirst, hm⟩ := h.ok hle hroom hr
    have hdepth := h1.depth
    have hlimit := h1.depthLimit
    obtain ⟨second, n, h2, hsecond, hn⟩ := (hn a).ok (by omega) (by omega) hrest
    exact ⟨first ++ second, max m n, h1.trans h2, hfirst.append hsecond, by omega⟩
  tooDeep {c limit place} hle hroom herr := by
    rcases bind_eq_error.mp herr with hr | ⟨a, e, hr, hrest⟩
    · exact h.tooDeep hle hroom hr
    · obtain ⟨first, m, h1, hfirst, hm⟩ := h.ok hle hroom hr
      have hdepth := h1.depth
      have hlimit := h1.depthLimit
      exact ((hn a).tooDeep (by omega) (by omega) hrest).of_reads h1 hfirst hm

/-- A choice exceeds the limit where one of its rules does. -/
theorem choice_eq_tooDeep {retry : Retry} {rules : List (Rule α)} {limit : Nat} {place : Position}
    (h : choice retry rules c = .error (.tooDeep limit place)) : ∃ rule ∈ rules, rule c = .error (.tooDeep limit place) := by
  refine of_choice_eq_error (P := fun err => err = .tooDeep limit place → ∃ rule ∈ rules, rule c = .error (.tooDeep limit place))
    (fun rule hmem err hr heq => ⟨rule, hmem, heq ▸ hr⟩) ?_ ?_ h rfl
  · exact fun herr _ heq => herr (ParseError.merge_eq_tooDeep heq)
  · exact fun heq => nomatch heq

theorem nests_choice {retry : Retry} {rules : List (Rule α)} (h : ∀ rule ∈ rules, rule.Nests room) :
    (choice retry rules).Nests room where
  ok hle hroom hok := by
    obtain ⟨rule, hmem, hr⟩ := choice_eq_ok hok
    exact (h rule hmem).ok hle hroom hr
  tooDeep hle hroom herr := by
    obtain ⟨rule, hmem, hr⟩ := choice_eq_tooDeep herr
    exact (h rule hmem).tooDeep hle hroom hr

theorem Nests.maybe {retry : Retry} {rule : Rule α} (h : rule.Nests room) : (maybe retry rule).Nests room where
  ok hle hroom hok := by
    rcases maybe_eq_ok.mp hok with ⟨a, -, hr⟩ | ⟨-, rfl, -⟩
    · exact h.ok hle hroom hr
    · exact ⟨[], 0, .refl _, closed_nil, hle⟩
  tooDeep hle hroom herr := h.tooDeep hle hroom (maybe_eq_error.mp herr).1

theorem Nests.run {rule : Rule α} (h : rule.Nests room) {as : List α} (hle : c.depth ≤ c.depthLimit)
    (hroom : c.depthLimit < c.depth + room) (hrun : Run rule c as d) :
    ∃ text n, c.Reads text d ∧ Closed text n ∧ c.depth + n ≤ c.depthLimit := by
  induction hrun with
  | nil => exact ⟨[], 0, .refl _, closed_nil, hle⟩
  | cons hr _ _ ih =>
    obtain ⟨first, m, h1, hfirst, hm⟩ := h.ok hle hroom hr
    have hdepth := h1.depth
    have hlimit := h1.depthLimit
    obtain ⟨second, n, h2, hsecond, hn⟩ := ih (by omega) (by omega)
    exact ⟨first ++ second, max m n, h1.trans h2, hfirst.append hsecond, by omega⟩

theorem Nests.many {retry : Retry} {rule : Rule α} (h : rule.Nests room) : (many retry rule).Nests room where
  ok hle hroom hok := h.run hle hroom (many_eq_ok_iff.mp hok).1
  tooDeep {c limit place} hle hroom herr := by
    obtain ⟨as, e, hrun, hr, -⟩ := many_eq_error.mp herr
    obtain ⟨first, m, h1, hfirst, hm⟩ := h.run hle hroom hrun
    have hdepth := h1.depth
    have hlimit := h1.depthLimit
    exact (h.tooDeep (by omega) (by omega) hr).of_reads h1 hfirst hm

theorem Nests.sepBy {retry : Retry} {item : Rule α} (h : item.Nests room) :
    (sepBy retry item (token .comma)).Nests room := by
  refine h.maybe.bind fun o => ?_
  cases o with
  | none => exact (flat_pure _).nests
  | some first =>
    have hfurther : (do token .comma; item).Nests room := (flat_token (by decide)).nests.bind fun _ => h
    exact hfurther.many.bind fun others => (flat_pure _).nests

/-- A part in brackets nests one level deeper. -/
theorem Nests.brackets {opening closing : Token} {x y : Char} {body : Rule α} {finish : α → Rule β} (h : body.Nests room)
    (hx : opening.text.toList = [x]) (hopens : x = '[' ∨ x = '{') (hy : closing.text.toList = [y])
    (hcloses : y = ']' ∨ y = '}') (hf : ∀ a, (finish a).Flat) :
    (do
      token opening
      nested do
        let a ← body
        token closing
        finish a).Nests (room + 1) where
  ok {c d b} hle hroom hok := by
    obtain ⟨⟨⟩, c1, hopen, hnested⟩ := bind_eq_ok.mp hok
    obtain ⟨hlt, e, hbody, rfl⟩ := nested_eq_ok.mp hnested
    obtain ⟨a, c2, hr, hrest⟩ := bind_eq_ok.mp hbody
    obtain ⟨⟨⟩, c3, hclose, hfinish⟩ := bind_eq_ok.mp hrest
    obtain ⟨left, hleft, h1, -⟩ := reads_token hopen
    have hdepth := h1.depth
    have hlimit := h1.depthLimit
    obtain ⟨inner, n, h2, hinner, hn⟩ := h.ok (c := c1.withDepth (c1.depth + 1)) hlt (by
      show c1.depthLimit < c1.depth + 1 + room
      omega) hr
    have hn : c1.depth + 1 + n ≤ c1.depthLimit := hn
    obtain ⟨right, hright, h3, -⟩ := reads_token hclose
    obtain ⟨last, h4, hlast⟩ := (hf a).ok hfinish
    have hreads := h1.trans ((h2.trans h3).trans h4).of_withDepth
    refine ⟨_, max (n + 1) 0, hreads, ?_, by omega⟩
    rw [← List.append_assoc, ← List.append_assoc]
    rw [Punctuation, hx] at hleft
    rw [Punctuation, hy] at hright
    exact (hinner.brackets hopens hcloses hleft hright).append hlast
  tooDeep {c limit place} hle hroom herr := by
    rcases bind_eq_error.mp herr with hopen | ⟨⟨⟩, c1, hopen, hnested⟩
    · obtain ⟨m, -, h⟩ := lexeme_eq_error.mp hopen
      cases h
    · obtain ⟨left, ⟨w, hw, rfl⟩, h1, hflush⟩ := reads_token hopen
      rw [hx] at h1
      have hdepth := h1.depth
      have hlimit := h1.depthLimit
      -- the limit is exceeded at this bracket, or somewhere behind it
      rcases nested_eq_error.mp hnested with ⟨hfull, heq⟩ | ⟨hlt, hbody⟩
      · obtain ⟨-, rfl⟩ := ParseError.tooDeep.inj heq
        exact h1.overruns hopens hw hflush (by omega)
      · rcases bind_eq_error.mp hbody with hr | ⟨a, c2, -, hrest⟩
        · have hinner := h.tooDeep (c := c1.withDepth (c1.depth + 1)) hlt (by
            show c1.depthLimit < c1.depth + 1 + room
            omega) hr
          exact Cursor.Overruns.in_brackets h1 hopens hw hinner (by omega)
        · rcases bind_eq_error.mp hrest with hclose | ⟨⟨⟩, c3, -, hfinish⟩
          · obtain ⟨m, -, h⟩ := lexeme_eq_error.mp hclose
            cases h
          · cases (hf a).error hfinish

/-! ### The rules of the grammar -/

theorem Nests.member {value : Rule Value} (h : value.Nests room) : (member value).Nests room :=
  flat_quoted.nests.bind fun _ => (flat_token (by decide)).nests.bind fun _ => h.bind fun _ => (flat_pure _).nests

theorem nests_literalForm {value : Rule Value} (h : value.Nests room) (f : LiteralForm) :
    (literalForm s value f).Nests (room + 1) := by
  cases f with
  | number => exact (flat_number.bind fun _ => flat_pure _).nests
  | object =>
    have hmembers : (sepBy s.retry (member value) (token .comma)).Nests room := h.member.sepBy
    exact hmembers.brackets rfl (Or.inr rfl) rfl (Or.inr rfl) fun _ => flat_pure _
  | list =>
    have hitems : (sepBy s.retry value (token .comma)).Nests room := h.sepBy
    exact hitems.brackets rfl (Or.inl rfl) rfl (Or.inl rfl) fun _ => flat_pure _
  | boolean b => cases b <;> exact ((flat_token (by decide)).bind fun _ => flat_pure _).nests
  | null => exact ((flat_token (by decide)).bind fun _ => flat_pure _).nests

theorem nests_literalWithin (s : Strategy) (levels : Nat) : (literalWithin s levels).Nests levels := by
  induction levels with
  | zero => exact ⟨fun hle hroom => absurd hroom (Nat.not_lt.mpr hle), fun hle hroom => absurd hroom (Nat.not_lt.mpr hle)⟩
  | succ levels ih =>
    refine nests_choice fun rule hm => ?_
    obtain ⟨f, -, rfl⟩ := List.mem_map.mp hm
    exact nests_literalForm ih f

theorem nests_literal (s : Strategy) : (literal s).Nests room where
  ok hle _ hok := (nests_literalWithin s _).ok hle (by omega) hok
  tooDeep hle _ herr := (nests_literalWithin s _).tooDeep hle (by omega) herr

theorem nests_typeForm {item : Rule TypeRef} (h : item.Nests room) (f : TypeForm) :
    (typeForm item f).Nests (room + 1) := by
  cases f with
  | named => exact (flat_name.bind fun _ => (flat_tokenIf (by decide)).bind fun _ => flat_pure _).nests
  | list =>
    exact h.brackets rfl (Or.inl rfl) rfl (Or.inl rfl) fun _ => (flat_tokenIf (by decide)).bind fun _ => flat_pure _

theorem nests_typeRefWithin (s : Strategy) (levels : Nat) : (typeRefWithin s levels).Nests levels := by
  induction levels with
  | zero => exact ⟨fun hle hroom => absurd hroom (Nat.not_lt.mpr hle), fun hle hroom => absurd hroom (Nat.not_lt.mpr hle)⟩
  | succ levels ih =>
    refine nests_choice fun rule hm => ?_
    obtain ⟨f, -, rfl⟩ := List.mem_map.mp hm
    exact nests_typeForm ih f

theorem nests_typeRef (s : Strategy) : (typeRef s).Nests room where
  ok hle _ hok := (nests_typeRefWithin s _).ok hle (by omega) hok
  tooDeep hle _ herr := (nests_typeRefWithin s _).tooDeep hle (by omega) herr

theorem nests_declaration (s : Strategy) : (declaration s).Nests room := by
  have hvalue : (defaultValue s).Nests room := (flat_token (by decide)).nests.bind fun _ => nests_literal s
  exact flat_position.nests.bind fun _ => (flat_token (by decide)).nests.bind fun _ => flat_name.nests.bind fun _ =>
    (flat_token (by decide)).nests.bind fun _ => (nests_typeRef s).bind fun _ => hvalue.maybe.bind fun _ =>
      (flat_pure _).nests

theorem nests_declarations (s : Strategy) : (declarations s).Nests room :=
  (flat_token (by decide)).nests.bind fun _ => (nests_declaration s).sepBy.bind fun _ =>
    (flat_token (by decide)).nests.bind fun _ => (flat_pure _).nests

end Rule

end RequestDoc

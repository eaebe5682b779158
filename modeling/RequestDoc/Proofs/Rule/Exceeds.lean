import RequestDoc.Proofs.Rule.Carries.Grammar
import RequestDoc.Proofs.Rule.Leading
import RequestDoc.Proofs.Rule.Nests

/-!
Limits in placed texts. A rule that exceeds the limit of depth in a text exceeds it in a greater text too, at the same
character, whatever follows the text there but a blank. The bracket that goes too far stands in the text, so nothing
that was read in front of it goes on behind the end of the text.
-/

namespace RequestDoc

open Grammar Nesting

variable {α β : Type} {p : Placement} {s : Strategy} {c d : Cursor} {limit room : Nat} {place : Position}

/-! ### Texts in front of no blank -/

namespace Placement

variable (htail : Flush p.tail)

include htail

theorem cursor_skipBlanks_of_flush (hc : c.Valid) : (p.cursor c).skipBlanks = p.cursor c.skipBlanks := by
  have htake : (c.rest ++ p.tail).takeWhile Character.isBlank = c.rest.takeWhile Character.isBlank := by
    have hflush : Flush (c.rest.dropWhile Character.isBlank ++ p.tail) := by
      have hdrop := flush_dropWhile c.rest
      cases hrest : c.rest.dropWhile Character.isBlank with
      | nil => exact htail
      | cons x rest => exact flush_cons (hdrop x (by rw [hrest]; rfl))
    have happend := takeWhile_blanks_append (blanks_takeWhile c.rest) hflush
    rwa [← List.append_assoc, List.takeWhile_append_dropWhile] at happend
  show (p.cursor c).past ((c.rest ++ p.tail).takeWhile Character.isBlank) = _
  rw [htake]
  exact cursor_past hc List.takeWhile_append_dropWhile.symm

theorem token_of_flush {t : Token} (hk : t.isKeyword = false) (hc : c.Valid) (h : Lexeme.token t c = .ok ((), d)) :
    Lexeme.token t (p.cursor c) = .ok ((), p.cursor d) := by
  obtain ⟨⟨⟨rest, hr⟩, rfl⟩, -⟩ := Lexeme.token_eq_ok_iff.mp h
  have hrest : (p.cursor c).rest = t.text.toList ++ (rest ++ p.tail) := by
    show c.rest ++ p.tail = _
    rw [hr, List.append_assoc]
  refine Lexeme.token_eq_ok_iff.mpr ⟨⟨⟨_, hrest⟩, ?_⟩, fun hkw => absurd (hk.symm.trans hkw) Bool.false_ne_true⟩
  rw [cursor_past hc hr, cursor_skipBlanks_of_flush htail (hc.past hr)]

end Placement

/-! ### Rules -/

/-- The bracket that exceeds the limit settles the text that it stands in. -/
theorem Cursor.Overruns.settled (h : c.Overruns place) (hle : c.depth ≤ c.depthLimit) : Settled c.rest := by
  obtain ⟨front, w, d, hr, -, -, -, hover⟩ := h
  have hlevel : (State.mk .outside c.depth).level < ((State.mk .outside c.depth).after front).level :=
    Nat.lt_of_le_of_lt hle (State.level_after_overrun hover)
  obtain ⟨x, hx, hopens⟩ := State.exists_opening hlevel
  refine ⟨x, ?_, ?_⟩
  · rw [hr.rest, List.append_assoc]
    exact List.mem_append_left _ hx
  · rcases hopens with rfl | rfl <;> decide

namespace Rule

/-- Where the rule exceeds the limit in the text, it does so in the greater text. Less than `room` brackets may
still be opened. -/
structure Exceeds (p : Placement) (room : Nat) (rule : Rule α) : Prop where
  tooDeep : ∀ {c limit place}, p.Fits c → c.depth ≤ c.depthLimit → c.depthLimit < c.depth + room →
    rule c = .error (.tooDeep limit place) → rule (p.cursor c) = .error (.tooDeep limit (place.shift p.start))

/-- What is read before the limit is exceeded is sealed by the bracket that exceeds it. -/
theorem Exceeds.behind {rule : Rule α} {next : α → Rule β} {a : α} (hcarries : rule.Carries p id rule)
    (hrule : rule.Nests room) (hnests : (next a).Nests room) (h : (next a).Exceeds p room) (hc : p.Fits c)
    (hle : c.depth ≤ c.depthLimit) (hroom : c.depthLimit < c.depth + room) (hr : rule c = .ok (a, d))
    (hnext : next a d = .error (.tooDeep limit place)) :
    (rule >>= next) (p.cursor c) = .error (.tooDeep limit (place.shift p.start)) := by
  obtain ⟨text, n, hreads, -, -⟩ := hrule.ok hle hroom hr
  have hdepth := hreads.depth
  have hlimit := hreads.depthLimit
  have hsettled := (hnests.tooDeep (by omega) (by omega) hnext).settled (by omega)
  have hr' : rule (p.cursor c) = .ok (a, p.cursor d) := hcarries.ok hc hr (Or.inr hsettled)
  rw [bind_of_ok hr']
  exact h.tooDeep (hc.of_reads hreads) (by omega) (by omega) hnext

theorem Exceeds.bind {rule : Rule α} {next : α → Rule β} (hcarries : rule.Carries p id rule) (hrule : rule.Nests room)
    (hnests : ∀ a, (next a).Nests room) (h : rule.Exceeds p room) (hn : ∀ a, (next a).Exceeds p room) :
    (rule >>= next).Exceeds p room where
  tooDeep {c limit place} hc hle hroom herr := by
    rcases bind_eq_error.mp herr with hr | ⟨a, d, hr, hnext⟩
    · exact bind_of_error (h.tooDeep hc hle hroom hr)
    · exact Exceeds.behind hcarries hrule (hnests a) (hn a) hc hle hroom hr hnext

theorem Flat.exceeds {rule : Rule α} (h : rule.Flat) : rule.Exceeds p room where
  tooDeep _ _ _ herr := nomatch h.error herr

/-! ### Rows and brackets -/

theorem Carries.leading {item : Rule α} (h : item.Carries p id item) {as : List α} (hc : p.Fits c)
    (hleading : Leading item c as d) (hd : p.Sealed d.rest) : Leading item (p.cursor c) as (p.cursor d) := by
  induction hleading with
  | none => exact .none _
  | more hr ht hrest ih =>
    obtain ⟨first, h1⟩ := h.moves.reads hr
    obtain ⟨comma, -, h2, -⟩ := (Lexeme.token_eq_ok ht).reads
    obtain ⟨rest, h3⟩ := h.moves.leading hrest
    have hfits := hc.of_reads h1
    have hsealed := hd.of_reads h3
    have ht' : token .comma (p.cursor _) = .ok ((), p.cursor _) :=
      (carries_token .comma).ok hfits (token_eq_ok.mpr ht) hsealed
    exact .more (h.ok hc hr (hsealed.of_reads h2)) (token_eq_ok.mp ht') (ih (hfits.of_reads h2) hd)

theorem Exceeds.sepBy (hs : s.Committed) {item : Rule α} (hcarries : item.Carries p id item) (hnests : item.Nests room)
    (h : item.Exceeds p room) : (sepBy s.retry item (token .comma)).Exceeds p room where
  tooDeep {c limit place} hc hle hroom herr := by
    obtain ⟨as, e, hleading, hi, -⟩ := (sepBy_eq_error_iff hs hcarries.moves hc.inner).mp herr
    obtain ⟨text, hr⟩ := hcarries.moves.leading hleading
    have hdepth := hr.depth
    have hlimit := hr.depthLimit
    have hsettled := (hnests.tooDeep (by omega) (by omega) hi).settled (by omega)
    refine (sepBy_eq_error_iff hs hcarries.moves hc.outer).mpr
      ⟨as, _, hcarries.leading hc hleading (Or.inr hsettled), h.tooDeep (hc.of_reads hr) (by omega) (by omega) hi, fun _ => ?_⟩
    rw [hs]
    rfl

/-- Neither the bracket nor the blanks behind it go on behind the end of the text. -/
theorem Exceeds.brackets (hmore : p.more = 0) (htail : Flush p.tail) {opening closing : Token} {body : Rule α}
    {finish : α → Rule β} (h : body.Exceeds p room) (hk : opening.isKeyword = false) (hf : ∀ a, (finish a).Flat) :
    Exceeds p (room + 1) (do
      token opening
      nested do
        let a ← body
        token closing
        finish a) where
  tooDeep {c limit place} hc hle hroom herr := by
    rcases bind_eq_error.mp herr with hopen | ⟨⟨⟩, d, hopen, hnested⟩
    · obtain ⟨m, -, h⟩ := lexeme_eq_error.mp hopen
      cases h
    · obtain ⟨left, -, hr, -⟩ := reads_token hopen
      have hdepth := hr.depth
      have hlimit := hr.depthLimit
      have hfits := hc.of_reads hr
      have hlimit' : (p.cursor d).depthLimit = d.depthLimit := by
        show d.depthLimit + p.more = _
        rw [hmore, Nat.add_zero]
      have hopen' := Placement.token_of_flush htail hk hc.inner (token_eq_ok.mp hopen)
      refine bind_eq_error.mpr (Or.inr ⟨(), p.cursor d, token_eq_ok.mpr hopen', nested_eq_error.mpr ?_⟩)
      rw [hlimit']
      rcases nested_eq_error.mp hnested with ⟨hfull, heq⟩ | ⟨hlt, hbody⟩
      · obtain ⟨rfl, rfl⟩ := ParseError.tooDeep.inj heq
        exact Or.inl ⟨hfull, rfl⟩
      · refine Or.inr ⟨hlt, ?_⟩
        rcases bind_eq_error.mp hbody with hinner | ⟨a, e, -, hrest⟩
        · have hinner' := h.tooDeep (hfits.withDepth (d.depth + 1)) hlt (by
            show d.depthLimit < d.depth + 1 + room
            omega) hinner
          exact bind_of_error hinner'
        · rcases bind_eq_error.mp hrest with hclose | ⟨⟨⟩, f, -, hfinish⟩
          · obtain ⟨m, -, h⟩ := lexeme_eq_error.mp hclose
            cases h
          · cases (hf a).error hfinish

/-! ### Literals and type references -/

theorem Exceeds.member {value : Rule Value} (hcarries : value.Carries p id value) (hnests : value.Nests room)
    (h : value.Exceeds p room) : (member value).Exceeds p room := by
  have hpair : ∀ key : String, (do let v ← value; return (key, v)).Nests room := fun key =>
    hnests.bind fun _ => (flat_pure _).nests
  have hcolon : ∀ key : String, (do token .colon; let v ← value; return (key, v)).Nests room := fun key =>
    (flat_token (by decide)).nests.bind fun _ => hpair key
  refine Exceeds.bind carries_quoted flat_quoted.nests hcolon flat_quoted.exceeds fun key => ?_
  refine Exceeds.bind (carries_token _) (flat_token (by decide)).nests (fun _ => hpair key)
    (flat_token (by decide)).exceeds fun _ => ?_
  exact Exceeds.bind hcarries hnests (fun _ => (flat_pure _).nests) h fun _ => (flat_pure _).exceeds

theorem literalWithin_eq_tooDeep {levels : Nat} (h : literalWithin s (levels + 1) c = .error (.tooDeep limit place)) :
    ∃ f x, c.rest.head? = some x ∧ f.StartsWith x ∧
      literalForm s (literalWithin s levels) f c = .error (.tooDeep limit place) := by
  obtain ⟨rule, hm, hr⟩ := choice_eq_tooDeep h
  obtain ⟨f, -, rfl⟩ := List.mem_map.mp hm
  by_cases hx : ∀ x ∈ c.rest.head?, ¬f.StartsWith x
  · obtain ⟨expected, hrefuses⟩ := refuses_literalForm hx (literalWithin s levels)
    cases hr.symm.trans hrefuses
  · simp only [Classical.not_forall, Classical.not_not] at hx
    obtain ⟨x, hx, hf⟩ := hx
    exact ⟨f, x, hx, hf, hr⟩

theorem typeRefWithin_eq_tooDeep {levels : Nat} (h : typeRefWithin s (levels + 1) c = .error (.tooDeep limit place)) :
    ∃ f x, c.rest.head? = some x ∧ f.StartsWith x ∧
      typeForm (typeRefWithin s levels) f c = .error (.tooDeep limit place) := by
  obtain ⟨rule, hm, hr⟩ := choice_eq_tooDeep h
  obtain ⟨f, -, rfl⟩ := List.mem_map.mp hm
  by_cases hx : ∀ x ∈ c.rest.head?, ¬f.StartsWith x
  · obtain ⟨expected, hrefuses⟩ := refuses_typeForm hx (typeRefWithin s levels)
    cases hr.symm.trans hrefuses
  · simp only [Classical.not_forall, Classical.not_not] at hx
    obtain ⟨x, hx, hf⟩ := hx
    exact ⟨f, x, hx, hf, hr⟩

theorem head?_cursor {x : Char} (hx : c.rest.head? = some x) : (p.cursor c).rest.head? = some x := by
  show (c.rest ++ p.tail).head? = some x
  rw [List.head?_append, hx, Option.some_or]

/-- Rules that take as many levels as brackets may still be opened. -/
theorem exceeds_levels (hmore : p.more = 0) {within : Nat → Rule α} (h : ∀ levels, (within levels).Exceeds p levels) :
    Exceeds p room (fun c => within (c.depthLimit - c.depth + 1) c) where
  tooDeep {c limit place} hfits hle _ herr := by
    have hlevels : (p.cursor c).depthLimit - (p.cursor c).depth = c.depthLimit - c.depth := by
      show c.depthLimit + p.more - c.depth = _
      rw [hmore, Nat.add_zero]
    rw [hlevels]
    exact (h (c.depthLimit - c.depth + 1)).tooDeep hfits hle (by omega) herr

section Grammar

variable (hs : s.Thorough) (hc : s.Committed) (hmore : p.more = 0) (htail : Flush p.tail)

include hc hmore htail

theorem Exceeds.literalForm {value : Rule Value} (hcarries : value.Carries p id value) (hnests : value.Nests room)
    (h : value.Exceeds p room) (f : LiteralForm) : (literalForm s value f).Exceeds p (room + 1) := by
  cases f with
  | number => exact (flat_number.bind fun _ => flat_pure _).exceeds
  | object =>
    have hmembers := Exceeds.sepBy hc hcarries.member hnests.member (h.member hcarries hnests)
    exact Exceeds.brackets hmore htail hmembers rfl fun _ => flat_pure _
  | list => exact Exceeds.brackets hmore htail (Exceeds.sepBy hc hcarries hnests h) rfl fun _ => flat_pure _
  | boolean b => cases b <;> exact ((flat_token (by decide)).bind fun _ => flat_pure _).exceeds
  | null => exact ((flat_token (by decide)).bind fun _ => flat_pure _).exceeds

include hs

theorem exceeds_literalWithin (levels : Nat) : (literalWithin s levels).Exceeds p levels := by
  induction levels with
  | zero => exact ⟨fun _ hle hroom => absurd hroom (Nat.not_lt.mpr hle)⟩
  | succ levels ih =>
    have hcarries : (literalWithin s levels).Carries p id (literalWithin s levels) :=
      carries_literalWithin hc (Nat.le_refl _) (Nat.le_add_right _ _)
    refine ⟨fun hfits hle hroom herr => ?_⟩
    obtain ⟨f, x, hx, hf, hform⟩ := literalWithin_eq_tooDeep herr
    have hform' := (ih.literalForm hc hmore htail hcarries (nests_literalWithin s levels) f).tooDeep hfits hle hroom hform
    exact literalWithin_of_form hs (head?_cursor hx) hf hform' (final_error hs.stops)

theorem exceeds_literal : (literal s).Exceeds p room :=
  exceeds_levels hmore (exceeds_literalWithin hs hc hmore htail)

omit hc

theorem exceeds_typeRefWithin (levels : Nat) : (typeRefWithin s levels).Exceeds p levels := by
  induction levels with
  | zero => exact ⟨fun _ hle hroom => absurd hroom (Nat.not_lt.mpr hle)⟩
  | succ levels ih =>
    refine ⟨fun hfits hle hroom herr => ?_⟩
    obtain ⟨f, x, hx, hf, hform⟩ := typeRefWithin_eq_tooDeep herr
    have hexceeds : (typeForm (typeRefWithin s levels) f).Exceeds p (levels + 1) := by
      cases f with
      | named => exact (flat_name.bind fun _ => (flat_tokenIf (by decide)).bind fun _ => flat_pure _).exceeds
      | list => exact Exceeds.brackets hmore htail ih rfl fun _ => (flat_tokenIf (by decide)).bind fun _ => flat_pure _
    exact typeRefWithin_of_form hs (head?_cursor hx) hf (hexceeds.tooDeep hfits hle hroom hform) (final_error hs.stops)

theorem exceeds_typeRef : (typeRef s).Exceeds p room :=
  exceeds_levels hmore (exceeds_typeRefWithin hs hmore htail)

end Grammar

end Rule

end RequestDoc

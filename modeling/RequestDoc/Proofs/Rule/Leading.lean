import RequestDoc.Proofs.Rule.Dispatch

/-!
Rows of items that break off. By a strategy that commits, items with commas fail exactly at an item: at the first
one, behind whose start there is no way back, or at one behind a comma. So what was read before an error is a row of
items with a comma behind each of them.
-/

namespace RequestDoc.Rule

variable {α : Type} {s : Strategy} {c d e : Cursor} {err : ParseError} {item : Rule α}

/-- The rule reads the items one after the other, with a comma behind each of them. -/
inductive Leading (item : Rule α) : Cursor → List α → Cursor → Prop where
  | none (c : Cursor) : Leading item c [] c
  | more {c d e f : Cursor} {a : α} {as : List α} :
      item c = .ok (a, d) → Lexeme.token .comma d = .ok ((), e) → Leading item e as f → Leading item c (a :: as) f

theorem Moves.leading (hm : item.Moves) {as : List α} (h : Leading item c as e) : ∃ text, c.Reads text e := by
  induction h with
  | none => exact ⟨[], .refl _⟩
  | more hr ht _ ih =>
    obtain ⟨first, h1⟩ := hm.reads hr
    obtain ⟨comma, -, h2, -⟩ := (Lexeme.token_eq_ok ht).reads
    obtain ⟨rest, h3⟩ := ih
    exact ⟨_, (h1.trans h2).trans h3⟩

theorem leading_of_run {a : α} {as : List α} (hi : item c = .ok (a, d)) (h : Run (do token .comma; item) d as e) {f : Cursor}
    (hcomma : Lexeme.token .comma e = .ok ((), f)) : Leading item c (a :: as) f := by
  generalize hrule : (do token .comma; item) = rule at h
  induction h generalizing a c with
  | nil => exact .more hi hcomma (.none _)
  | cons hr _ _ ih =>
    subst hrule
    obtain ⟨⟨⟩, next, ht, hi'⟩ := bind_eq_ok.mp hr
    exact .more hi (token_eq_ok.mp ht) (ih hi' hcomma)

theorem run_of_leading (hm : item.Moves) {as : List α} (h : Leading item c as e) (hc : c.Valid) :
    (as = [] ∧ e = c) ∨ ∃ a others d f, as = a :: others ∧ item c = .ok (a, d) ∧ Run (do token .comma; item) d others f ∧
      f.Valid ∧ Lexeme.token .comma f = .ok ((), e) := by
  induction h with
  | none => exact Or.inl ⟨rfl, rfl⟩
  | @more c d e f a as hr ht _ ih =>
    obtain ⟨text, h1⟩ := hm.reads hr
    obtain ⟨comma, ⟨w, -, rfl⟩, h2, -⟩ := (Lexeme.token_eq_ok ht).reads
    have hd := h1.valid hc
    rcases ih (h2.valid hd) with ⟨rfl, rfl⟩ | ⟨b, others, g, k, rfl, hi, hrun, hk, hcomma⟩
    · exact Or.inr ⟨a, [], d, d, rfl, hr, .nil d, hd, ht⟩
    · obtain ⟨next, h3⟩ := hm.reads hi
      have hboth : (do token .comma; item) d = .ok (b, g) := bind_eq_ok.mpr ⟨(), e, token_eq_ok.mpr ht, hi⟩
      have hne : Token.comma.text.toList ++ w ++ next ≠ [] :=
        List.append_ne_nil_of_left_ne_nil (List.append_ne_nil_of_left_ne_nil Token.comma.text_ne_nil w) next
      exact Or.inr ⟨a, b :: others, d, k, rfl, hr, .cons hboth ((h2.trans h3).left_lt hd hne) hrun, hk, hcomma⟩

/-- Items with commas fail exactly at an item. -/
theorem sepBy_eq_error_iff (hs : s.Committed) (hm : item.Moves) (hc : c.Valid) :
    sepBy s.retry item (token .comma) c = .error err ↔
      ∃ as e, Leading item c as e ∧ item e = .error err ∧ (as = [] → s.retry err e.offset = false) := by
  constructor
  · intro h
    rcases bind_eq_error.mp h with hm | ⟨o, next, hm, hrest⟩
    · obtain ⟨hi, hretry⟩ := maybe_eq_error.mp hm
      exact ⟨[], c, .none c, hi, fun _ => hretry⟩
    · rcases maybe_eq_ok.mp hm with ⟨a, rfl, hi⟩ | ⟨rfl, rfl, -⟩
      · rcases bind_eq_error.mp hrest with hmany | ⟨_, _, _, hlast⟩
        · obtain ⟨as, last, hrun, herr, hretry⟩ := many_eq_error.mp hmany
          rcases bind_eq_error.mp herr with ht | ⟨⟨⟩, e, ht, hi'⟩
          · -- a missing comma ends the row without an error
            obtain ⟨m, hlexeme, rfl⟩ := lexeme_eq_error.mp ht
            rw [Lexeme.token_eq_error hlexeme, hs] at hretry
            cases (beq_self_eq_true last.offset).symm.trans hretry
          · exact ⟨a :: as, e, leading_of_run hi hrun (token_eq_ok.mp ht), hi', fun h => nomatch h⟩
        · cases hlast
      · cases hrest
  · rintro ⟨as, e, hleading, hi, hretry⟩
    rcases run_of_leading hm hleading hc with ⟨rfl, rfl⟩ | ⟨a, others, d, f, rfl, hfirst, hrun, hf, hcomma⟩
    · exact bind_eq_error.mpr (Or.inl (maybe_eq_error.mpr ⟨hi, hretry rfl⟩))
    · obtain ⟨comma, ⟨w, -, rfl⟩, hr, -⟩ := (Lexeme.token_eq_ok hcomma).reads
      have herr : (do token .comma; item) f = .error err :=
        bind_eq_error.mpr (Or.inr ⟨(), e, token_eq_ok.mpr hcomma, hi⟩)
      have hhard : s.retry err f.offset = false := by
        rw [hs]
        exact (hm.meets hi).failsAt_eq_false hr (List.append_ne_nil_of_left_ne_nil Token.comma.text_ne_nil w)
      refine bind_eq_error.mpr (Or.inr ⟨some a, d, maybe_eq_ok.mpr (Or.inl ⟨a, rfl, hfirst⟩), ?_⟩)
      exact bind_eq_error.mpr (Or.inl (many_eq_error.mpr ⟨others, f, hrun, herr, hhard⟩))

end RequestDoc.Rule

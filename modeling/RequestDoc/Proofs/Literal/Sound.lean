import RequestDoc.Proofs.Rule.Dispatch

/-!
What is read as a literal is one. A row of items that a rule reads is a separated text if every item is
told by the text that the rule reads for it, so by induction on the levels a list that is read is written
as a list and an object as an object, with the value that the grammar gives the text.
-/

namespace RequestDoc.Rule

variable {α γ : Type} {s : Strategy} {c d : Cursor}

/-- Items that are read are written one after the other with commas between them. -/
theorem separated_of_items {item : Rule α} {written : γ → List Char} {value : γ → α} {Writes : γ → Prop}
    (hitem : ∀ {c d a}, item c = .ok (a, d) → ∃ g, Writes g ∧ value g = a ∧ c.Reads (written g) d)
    {as : List α} (h : Items item c as d) :
    ∃ gs : List γ, (∀ g ∈ gs, Writes g) ∧ gs.map value = as ∧
      ∃ inner, Separated (gs.map written) inner ∧ c.Reads inner d := by
  induction h with
  | none => exact ⟨[], by simp, rfl, [], .nil, .refl _⟩
  | one hi =>
    obtain ⟨g, hg, rfl, hr⟩ := hitem hi
    exact ⟨[g], by simpa using hg, rfl, written g, .one _, hr⟩
  | more hi ht _ ih =>
    obtain ⟨g, hg, rfl, hr⟩ := hitem hi
    obtain ⟨comma, hcomma, hrc, -⟩ := (Lexeme.token_eq_ok ht).reads
    obtain ⟨gs, hgs, hmap, inner, hs, hri⟩ := ih
    cases gs with
    | nil => cases hmap
    | cons g' gs =>
      refine ⟨g :: g' :: gs, ?_, by rw [List.map_cons, hmap], written g ++ comma ++ inner,
        .more hcomma hs, (hr.trans hrc).trans hri⟩
      intro x hx
      rcases List.mem_cons.mp hx with rfl | hx
      · exact hg
      · exact hgs x hx

/-- The value is read from a text that writes it, up to a place where no blank comes next. -/
def ReadsLiteral (c : Cursor) (v : Value) (d : Cursor) : Prop :=
  ∃ text, Grammar.Literal text v ∧ c.Reads text d ∧ Flush d.rest

theorem readsLiteral_member {value : Rule Value}
    (hvalue : ∀ {c d v}, value c = .ok (v, d) → ReadsLiteral c v d) {p : String × Value}
    (h : member value c = .ok (p, d)) :
    ∃ m : Grammar.Member, ((Grammar.Key m.keyText m.key ∧ Grammar.Punctuation .colon m.colon) ∧
      Grammar.Literal m.valueText m.value) ∧ m.pair = p ∧ c.Reads m.text d := by
  obtain ⟨key, c1, hkey, h⟩ := bind_eq_ok.mp h
  obtain ⟨⟨⟩, c2, hcolon, h⟩ := bind_eq_ok.mp h
  obtain ⟨v, c3, hv, h⟩ := bind_eq_ok.mp h
  obtain ⟨rfl, rfl⟩ := Prod.mk.inj (Except.ok.inj h)
  obtain ⟨raw, hraw, hp⟩ := Lexeme.quoted_eq_ok (lexeme_eq_ok.mp hkey)
  obtain ⟨keyText, hks, h1, -⟩ := hp.reads
  obtain ⟨colon, hcs, h2, -⟩ := reads_token hcolon
  obtain ⟨valueText, hlit, h3, -⟩ := hvalue hv
  exact ⟨⟨keyText, key, colon, valueText, v⟩, ⟨⟨⟨raw, hraw, hks⟩, hcs⟩, hlit⟩, rfl, (h1.trans h2).trans h3⟩

/-- What is read as a list or an object is written between brackets. -/
theorem reads_bracketed {opening closing : Token} {item : Rule α} {build : List α → Value} {v : Value}
    {written : γ → List Char} {value : γ → α} {Writes : γ → Prop}
    (hitem : ∀ {c d a}, item c = .ok (a, d) → ∃ g, Writes g ∧ value g = a ∧ c.Reads (written g) d)
    (h : bracketed s.retry opening closing item build c = .ok (v, d)) :
    ∃ (gs : List γ) (left inner right : List Char), Grammar.Punctuation opening left ∧ (∀ g ∈ gs, Writes g) ∧
      Separated (gs.map written) inner ∧ Grammar.Punctuation closing right ∧ v = build (gs.map value) ∧
      c.Reads (left ++ inner ++ right) d ∧ Flush d.rest := by
  obtain ⟨items, c1, c2, e, hopen, -, hitems, hclose, rfl, rfl⟩ := bracketed_eq_ok h
  obtain ⟨left, hl, h1, -⟩ := (Lexeme.token_eq_ok hopen).reads
  obtain ⟨gs, hgs, rfl, inner, hs, h2⟩ := separated_of_items hitem hitems
  obtain ⟨right, hr, h3, hflush⟩ := (Lexeme.token_eq_ok hclose).reads
  refine ⟨gs, left, inner, right, hl, hgs, hs, hr, rfl, ?_, hflush⟩
  rw [List.append_assoc]
  exact h1.trans (h2.trans h3).of_withDepth

/-- What is read as a literal writes the value that is read. -/
theorem readsLiteral_literalWithin {levels : Nat} {v : Value} (h : literalWithin s levels c = .ok (v, d)) :
    ReadsLiteral c v d := by
  induction levels generalizing c v d with
  | zero => cases h
  | succ levels ih =>
    obtain ⟨rule, hm, h⟩ := choice_eq_ok h
    obtain ⟨f, -, rfl⟩ := List.mem_map.mp hm
    cases f with
    | number =>
      obtain ⟨x, c1, hx, h⟩ := bind_eq_ok.mp h
      obtain ⟨rfl, rfl⟩ := Prod.mk.inj (Except.ok.inj h)
      obtain ⟨n, hn, rfl, hp⟩ := Lexeme.number_eq_ok (lexeme_eq_ok.mp hx)
      obtain ⟨text, hs, hr, hflush⟩ := hp.reads
      exact ⟨text, .number hn hs, hr, hflush⟩
    | object =>
      obtain ⟨ms, left, inner, right, hl, hms, hs, hr, rfl, hreads, hflush⟩ :=
        reads_bracketed (readsLiteral_member ih) h
      exact ⟨_, .object ms hl (fun m hm => (hms m hm).1) (fun m hm => (hms m hm).2) hs hr, hreads, hflush⟩
    | list =>
      have hitem : ∀ {c d v}, literalWithin s levels c = .ok (v, d) →
          ∃ g : List Char × Value, Grammar.Literal g.1 g.2 ∧ g.2 = v ∧ c.Reads g.1 d := by
        intro c d v hv
        obtain ⟨text, hlit, hr, -⟩ := ih hv
        exact ⟨(text, v), hlit, rfl, hr⟩
      obtain ⟨gs, left, inner, right, hl, hgs, hs, hr, rfl, hreads, hflush⟩ := reads_bracketed hitem h
      exact ⟨_, .list gs hl hgs hs hr, hreads, hflush⟩
    | boolean b =>
      obtain ⟨⟨⟩, c1, ht, h⟩ := bind_eq_ok.mp h
      obtain ⟨rfl, rfl⟩ := Prod.mk.inj (Except.ok.inj h)
      obtain ⟨text, hs, hr, hflush⟩ := reads_token ht
      exact ⟨text, .boolean hs, hr, hflush⟩
    | null =>
      obtain ⟨⟨⟩, c1, ht, h⟩ := bind_eq_ok.mp h
      obtain ⟨rfl, rfl⟩ := Prod.mk.inj (Except.ok.inj h)
      obtain ⟨text, hs, hr, hflush⟩ := reads_token ht
      exact ⟨text, .null hs, hr, hflush⟩

end RequestDoc.Rule

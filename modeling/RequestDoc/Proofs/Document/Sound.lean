import RequestDoc.Proofs.Document.Brackets

/-!
What is read as a definition is one. Each rule reads a text that the grammar derives at the place where the
rule started, and a run of the rule for definitions reads a row of them. Whether the parts that may be
missing are there is told by the rule itself, since a part that is not read takes no text.
-/

namespace RequestDoc.Rule

open Grammar

variable {s : Strategy} {c d : Cursor}

/-! ### Variables -/

theorem default_of_maybe {o : Option Value} (h : maybe s.retry (defaultValue s) c = .ok (o, d)) (hc : Flush c.rest) :
    ∃ text, Default text o ∧ c.Reads text d ∧ Flush d.rest := by
  rcases maybe_eq_ok.mp h with ⟨v, rfl, hv⟩ | ⟨rfl, rfl, -⟩
  · obtain ⟨⟨⟩, c1, hequals, hliteral⟩ := bind_eq_ok.mp hv
    obtain ⟨equals, he, h1, -⟩ := reads_token hequals
    obtain ⟨text, hl, h2, hflush⟩ := readsLiteral_literalWithin hliteral
    exact ⟨equals ++ text, .some he hl, h1.trans h2, hflush⟩
  · exact ⟨[], .none, .refl _, hc⟩

theorem declaration_eq_ok {v : Variable} (h : declaration s c = .ok (v, d)) :
    ∃ text, Declaration c.position text v ∧ c.Reads text d ∧ Flush d.rest := by
  obtain ⟨place, c0, hplace, h⟩ := bind_eq_ok.mp h
  obtain ⟨rfl, rfl⟩ := Prod.mk.inj (Except.ok.inj hplace)
  obtain ⟨⟨⟩, c1, hdollar, h⟩ := bind_eq_ok.mp h
  obtain ⟨name, c2, hname, h⟩ := bind_eq_ok.mp h
  obtain ⟨⟨⟩, c3, hcolon, h⟩ := bind_eq_ok.mp h
  obtain ⟨type, c4, htype, h⟩ := bind_eq_ok.mp h
  obtain ⟨value, c5, hvalue, h⟩ := bind_eq_ok.mp h
  obtain ⟨rfl, rfl⟩ := Prod.mk.inj (Except.ok.inj h)
  obtain ⟨dollar, hd, h1, -⟩ := reads_token hdollar
  obtain ⟨nameText, hn, h2, -⟩ := reads_name hname
  obtain ⟨colon, hc, h3, -⟩ := reads_token hcolon
  obtain ⟨typeText, ht, h4, hflush, -⟩ := reference_of_typeRefWithin htype
  obtain ⟨defaultText, hv, h5, hflush⟩ := default_of_maybe hvalue hflush
  exact ⟨_, .mk hd hn hc ht hv, (((h1.trans h2).trans h3).trans h4).trans h5, hflush⟩

theorem declarations_of_items {vs : List Variable} (h : Items (declaration s) c vs d) :
    ∃ text, Declarations c.position text vs ∧ c.Reads text d := by
  induction h with
  | none => exact ⟨[], .none, .refl _⟩
  | one hv =>
    obtain ⟨text, hdecl, hr, -⟩ := declaration_eq_ok hv
    exact ⟨text, .one hdecl, hr⟩
  | more hv hcomma _ ih =>
    obtain ⟨text, hdecl, h1, -⟩ := declaration_eq_ok hv
    obtain ⟨comma, hc, h2, -⟩ := (Lexeme.token_eq_ok hcomma).reads
    obtain ⟨rest, hrest, h3⟩ := ih
    rw [(h1.trans h2).position] at hrest
    exact ⟨text ++ comma ++ rest, .more hdecl hc hrest, (h1.trans h2).trans h3⟩

theorem parameters_of_maybe {o : Option (List Variable)} (h : maybe s.retry (declarations s) c = .ok (o, d))
    (hc : Flush c.rest) : ∃ text, Parameters c.position text (o.getD []) ∧ c.Reads text d ∧ Flush d.rest := by
  rcases maybe_eq_ok.mp h with ⟨vs, rfl, hvs⟩ | ⟨rfl, rfl, -⟩
  · obtain ⟨⟨⟩, c1, hopen, hvs⟩ := bind_eq_ok.mp hvs
    obtain ⟨items, c2, hitems, hvs⟩ := bind_eq_ok.mp hvs
    obtain ⟨⟨⟩, c3, hclose, hvs⟩ := bind_eq_ok.mp hvs
    obtain ⟨rfl, rfl⟩ := Prod.mk.inj (Except.ok.inj hvs)
    obtain ⟨left, hl, h1, -⟩ := reads_token hopen
    obtain ⟨inner, hi, h2⟩ := declarations_of_items (sepBy_eq_ok hitems)
    obtain ⟨right, hr, h3, hflush⟩ := reads_token hclose
    rw [h1.position] at hi
    exact ⟨left ++ inner ++ right, .some hl hi hr, (h1.trans h2).trans h3, hflush⟩
  · exact ⟨[], .none, .refl _, hc⟩

/-- The parameters that are read nest no more deeply than the limit allows. -/
theorem closed_parameters_of_maybe {o : Option (List Variable)} (h : maybe s.retry (declarations s) c = .ok (o, d))
    (hc : Flush c.rest) : ∃ text n, Parameters c.position text (o.getD []) ∧ Nesting.Closed text n ∧
      (c.depth ≤ c.depthLimit → c.depth + n ≤ c.depthLimit) ∧ c.Reads text d := by
  obtain ⟨text, hp, hr, -⟩ := parameters_of_maybe h hc
  obtain ⟨n, hn, -⟩ := closed_parameters hp
  refine ⟨text, n, hp, hn, fun hle => ?_, hr⟩
  have hnests : (maybe s.retry (declarations s)).Nests (c.depthLimit + 1) := (nests_declarations s).maybe
  obtain ⟨m, hn', hm⟩ := hnests.closed_text hle (by omega) h hr
  obtain rfl := hn.unique hn'
  exact hm

/-! ### Queries -/

theorem keyword_ne_of_name {keyword name : List Char} (hquery : token .query c = .ok ((), d))
    (hr : c.Reads keyword d) (hn : IsName name) {rest : List Char} (hd : d.rest = name ++ rest) :
    keyword ≠ Token.query.text.toList := by
  rintro rfl
  have hends := (Lexeme.token_eq_ok_iff.mp (token_eq_ok.mp hquery)).2 rfl
  rw [hr.rest, List.drop_left, hd] at hends
  cases hn with
  | mk hx _ =>
    have hgoes := Character.continuesName_of_startsName hx
    rw [hends _ rfl] at hgoes
    cases hgoes

/-- What is read as a query is one, and its parameters nest no more deeply than the limit allows. -/
theorem query_eq_ok {op : Operation} (h : query s c = .ok (op, d)) :
    ∃ text n, QueryWithin n c.position text op ∧ (c.depth ≤ c.depthLimit → c.depth + n ≤ c.depthLimit) ∧
      c.Reads text d ∧ Flush d.rest := by
  obtain ⟨rule, hm, h⟩ := choice_eq_ok h
  obtain ⟨f, -, rfl⟩ := List.mem_map.mp hm
  cases f with
  | shorthand =>
    obtain ⟨place, c0, hplace, h⟩ := bind_eq_ok.mp h
    obtain ⟨rfl, rfl⟩ := Prod.mk.inj (Except.ok.inj hplace)
    obtain ⟨⟨⟩, c1, hopen, h⟩ := bind_eq_ok.mp h
    obtain ⟨name, c2, hname, h⟩ := bind_eq_ok.mp h
    obtain ⟨⟨⟩, c3, hclose, h⟩ := bind_eq_ok.mp h
    obtain ⟨rfl, rfl⟩ := Prod.mk.inj (Except.ok.inj h)
    obtain ⟨left, hl, h1, -⟩ := reads_token hopen
    obtain ⟨nameText, hn, h2, -⟩ := reads_name hname
    obtain ⟨right, hr, h3, hflush⟩ := reads_token hclose
    exact ⟨_, 0, .shorthand hl hn hr, id, (h1.trans h2).trans h3, hflush⟩
  | declared =>
    obtain ⟨place, c0, hplace, h⟩ := bind_eq_ok.mp h
    obtain ⟨rfl, rfl⟩ := Prod.mk.inj (Except.ok.inj hplace)
    obtain ⟨⟨⟩, c1, hquery, h⟩ := bind_eq_ok.mp h
    obtain ⟨name, c2, hname, h⟩ := bind_eq_ok.mp h
    obtain ⟨vs, c3, hvs, h⟩ := bind_eq_ok.mp h
    obtain ⟨⟨⟩, c4, hbrace, h⟩ := bind_eq_ok.mp h
    obtain ⟨rfl, rfl⟩ := Prod.mk.inj (Except.ok.inj h)
    obtain ⟨keyword, hk, h1, -⟩ := reads_token hquery
    obtain ⟨nameText, hn, h2, hflush⟩ := reads_name hname
    obtain ⟨parameters, n, hp, hclosed, hwithin, h3⟩ := closed_parameters_of_maybe hvs hflush
    obtain ⟨brace, hb, h4, hflush⟩ := reads_token hbrace
    have hne : keyword ≠ Token.query.text.toList := by
      obtain ⟨hname, w, -, rfl⟩ := hn
      exact keyword_ne_of_name hquery h1 hname (h2.rest.trans (List.append_assoc ..))
    rw [(h1.trans h2).depth, (h1.trans h2).depthLimit] at hwithin
    rw [(h1.trans h2).position] at hp
    exact ⟨_, n, .declared hk hne hn hp hclosed (Nat.le_refl n) hb, hwithin, ((h1.trans h2).trans h3).trans h4, hflush⟩

/-! ### Definitions -/

/-- A definition that is read takes up some text, and comes before whatever definitions follow it. -/
theorem definition_eq_ok {x : Definition} (h : definition s c = .ok (x, d)) :
    ∃ text, text ≠ [] ∧ c.Reads text d ∧ Flush d.rest ∧
      ∀ {ds rest}, Definitions d.position d.rest ds rest → Definitions c.position c.rest (x :: ds) rest := by
  obtain ⟨rule, hm, h⟩ := choice_eq_ok h
  obtain ⟨f, -, rfl⟩ := List.mem_map.mp hm
  cases f with
  | query =>
    obtain ⟨op, c1, hop, h⟩ := bind_eq_ok.mp h
    obtain ⟨rfl, rfl⟩ := Prod.mk.inj (Except.ok.inj h)
    obtain ⟨text, n, hq, -, hr, hflush⟩ := query_eq_ok hop
    refine ⟨text, query_ne_nil hq.query, hr, hflush, fun hmore => ?_⟩
    rw [hr.position] at hmore
    exact hr.rest ▸ .query hq.query hmore
  | mutation =>
    obtain ⟨place, c0, hplace, h⟩ := bind_eq_ok.mp h
    obtain ⟨rfl, rfl⟩ := Prod.mk.inj (Except.ok.inj hplace)
    obtain ⟨⟨⟩, c1, hword, h⟩ := bind_eq_ok.mp h
    obtain ⟨rfl, rfl⟩ := Prod.mk.inj (Except.ok.inj h)
    obtain ⟨text, ⟨w, hw, rfl⟩, hr, hflush⟩ := reads_token hword
    have hends := (Lexeme.token_eq_ok_iff.mp (token_eq_ok.mp hword)).2 rfl
    rw [hr.rest, List.append_assoc, List.drop_left] at hends
    refine ⟨_, List.append_ne_nil_of_left_ne_nil Token.mutation.text_ne_nil w, hr, hflush, fun hmore => ?_⟩
    rw [hr.position] at hmore
    exact hr.rest ▸ .mutation hw hends hmore

/-- A run of the rule for definitions reads definitions. -/
theorem definitions_of_run {ds : List Definition} (h : Run (definition s) c ds d) (hc : Flush c.rest) :
    Definitions c.position c.rest ds d.rest ∧ Flush d.rest := by
  induction h with
  | nil => exact ⟨.none, hc⟩
  | cons hx _ _ ih =>
    obtain ⟨text, -, -, hflush, hcons⟩ := definition_eq_ok hx
    obtain ⟨hmore, hend⟩ := ih hflush
    exact ⟨hcons hmore, hend⟩

end RequestDoc.Rule

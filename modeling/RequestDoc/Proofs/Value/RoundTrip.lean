import RequestDoc.Parse
import RequestDoc.Proofs.Literal.Sound
import RequestDoc.Proofs.Rule.Whole
import RequestDoc.Proofs.Value.Printed

/-!
Printing and parsing. A printed value is read back, and as itself, exactly if it is a literal. For the values
that are not literals no depth has to be known: whatever is read from printed characters was printed from a
literal, by induction on the value, because each printed mark tells which part of the value comes next.
-/

namespace RequestDoc

open Grammar

variable {α β γ : Type} {s : Strategy} {c d e : Cursor}

/-! ### How printed values start -/

namespace Value

/-- The form of the values whose printed text starts with the character. Strings have none. -/
def printedForm? (x : Char) : Option LiteralForm :=
  if x = '"' then none
  else if x = '{' then some .object
  else if x = '[' then some .list
  else if x = 't' then some (.boolean true)
  else if x = 'f' then some (.boolean false)
  else if x = 'n' then some .null
  else some .number

theorem printedForm?_of_startsWith {f : LiteralForm} {x : Char} (h : f.StartsWith x) : printedForm? x = some f := by
  rcases f with _ | _ | _ | (_ | _) | _
  · rcases h with rfl | hdigit
    · rfl
    · unfold printedForm?
      repeat rw [if_neg (by rintro rfl; exact absurd hdigit (by decide))]
  all_goals
    obtain rfl := h
    rfl

/-- The first printed character tells the form of a value. -/
theorem head?_chars (v : Value) (rest : List Char) :
    ∃ x, (v.chars ++ rest).head? = some x ∧ printedForm? x = v.form? ∧ Character.isBlank x = false ∧ x ≠ ']' := by
  cases v with
  | number x =>
    rw [chars]
    unfold Binary64.chars
    split
    · exact ⟨'N', rfl, rfl, by decide, by decide⟩
    · split
      · obtain ⟨y, ys, hy, hstart⟩ := Lexeme.head?_numeral x.wellFormed_numeral
        have hblank := LiteralForm.number.isBlank_of_startsWith hstart
        refine ⟨y, by rw [hy]; rfl, printedForm?_of_startsWith (f := .number) hstart, hblank, ?_⟩
        rintro rfl
        exact LiteralForm.not_startsWith (by decide) (by decide) .number hstart
      · cases x.negative with
        | true => exact ⟨'-', rfl, rfl, by decide, by decide⟩
        | false => exact ⟨'i', rfl, rfl, by decide, by decide⟩
  | string => exact ⟨'"', by rw [chars]; rfl, rfl, by decide, by decide⟩
  | boolean b =>
    cases b with
    | true => exact ⟨'t', by rw [chars]; rfl, rfl, by decide, by decide⟩
    | false => exact ⟨'f', by rw [chars]; rfl, rfl, by decide, by decide⟩
  | null => exact ⟨'n', by rw [chars]; rfl, rfl, by decide, by decide⟩
  | list items => exact ⟨'[', by rw [chars_list]; rfl, rfl, by decide, by decide⟩
  | object members => exact ⟨'{', by rw [chars_object]; rfl, rfl, by decide, by decide⟩

theorem flush_chars (v : Value) (rest : List Char) : Flush (v.chars ++ rest) := by
  obtain ⟨x, hx, -, hblank, -⟩ := v.head?_chars rest
  intro y hy
  obtain rfl := Option.some.inj (hx.symm.trans hy)
  exact hblank

theorem form?_of_chars {v : Value} {tail : List Char} {y : Char} {f : LiteralForm}
    (hy : (v.chars ++ tail).head? = some y) (hf : f.StartsWith y) : v.form? = some f := by
  obtain ⟨x, hx, hform, -⟩ := v.head?_chars tail
  obtain rfl := Option.some.inj (hx.symm.trans hy)
  exact hform.symm.trans (printedForm?_of_startsWith hf)

end Value

namespace Rule

open Value

/-! ### Items between brackets -/

/-- Printed items are read as what they were printed from, and each of them then is one that can be read. -/
theorem items_commaed {item : Rule α} {written : γ → List Char} {value : γ → α} {Good : γ → Prop} {closing : Token}
    (hclosing : closing = .closeBracket ∨ closing = .closeBrace)
    (hempty : ∀ {c r}, c.rest.head? = closing.text.toList.head? → item c ≠ .ok r) {gs : List γ}
    (hitem : ∀ g ∈ gs, ∀ {c d a tail}, c.rest = written g ++ tail → Apart tail → item c = .ok (a, d) →
      Good g ∧ a = value g ∧ d.rest = tail)
    (hstart : ∀ g ∈ gs, ∀ rest, Flush (written g ++ rest) ∧ (written g ++ rest).head? ≠ closing.text.toList.head?)
    {as : List α} {tail : List Char} (h : Items item c as d)
    (hc : c.rest = commaed (gs.map written) ++ (closing.text.toList ++ tail))
    (hclose : Lexeme.token closing d = .ok ((), e)) :
    (∀ g ∈ gs, Good g) ∧ as = gs.map value ∧ d.rest = closing.text.toList ++ tail := by
  have hapart : Apart (closing.text.toList ++ tail) :=
    apart_punctuation (by rcases hclosing with rfl | rfl <;> rfl) (.self _) tail
  have hcomma : closing.text.toList.head? ≠ some ',' := by
    rcases hclosing with rfl | rfl <;> decide
  have hlast : (closing.text.toList ++ tail).head? = closing.text.toList.head? := head?_punctuation (.self _) tail
  induction h generalizing gs with
  | none c =>
    cases gs with
    | nil => exact ⟨by simp, rfl, hc⟩
    | cons g gs =>
      obtain ⟨more, hmore⟩ := separated_starts (separated_commaed (written g :: gs.map written))
      rw [List.map_cons, hmore, List.append_assoc] at hc
      exact absurd (hc ▸ Lexeme.head?_of_token hclose) (hstart g List.mem_cons_self _).2
  | one hi =>
    rcases gs with _ | ⟨g, _ | ⟨g', gs⟩⟩
    · exact absurd hi (hempty (hc ▸ hlast))
    · obtain ⟨hgood, rfl, hrest⟩ := hitem g List.mem_cons_self hc hapart hi
      exact ⟨by simpa using hgood, rfl, hrest⟩
    · rw [List.map_cons, List.map_cons, commaed_append] at hc
      obtain ⟨-, -, hrest⟩ := hitem g List.mem_cons_self hc (apart_punctuation rfl (.self _) _) hi
      have hhead := Lexeme.head?_of_token hclose
      rw [hrest] at hhead
      exact absurd hhead.symm hcomma
  | more hi ht _ ih =>
    rcases gs with _ | ⟨g, _ | ⟨g', gs⟩⟩
    · exact absurd hi (hempty (hc ▸ hlast))
    · obtain ⟨-, -, hrest⟩ := hitem g List.mem_cons_self hc hapart hi
      have hhead := Lexeme.head?_of_token ht
      rw [hrest, hlast] at hhead
      exact absurd hhead hcomma
    · rw [List.map_cons, List.map_cons, commaed_append] at hc
      obtain ⟨hgood, rfl, hrest⟩ := hitem g List.mem_cons_self hc (apart_punctuation rfl (.self _) _) hi
      have hflush := flush_separated (separated_commaed ((g' :: gs).map written))
        (fun x hx rest => (hstart x (List.mem_cons_of_mem g hx) rest).1) hapart.flush
      have hnext := (Lexeme.token_eq_ok ht).rest_eq hrest (by decide) hflush
      obtain ⟨hothers, hmap, hend⟩ := ih (fun x hx => hitem x (List.mem_cons_of_mem g hx))
        (fun x hx => hstart x (List.mem_cons_of_mem g hx)) hnext hclose
      refine ⟨?_, congrArg (value g :: ·) hmap, hend⟩
      intro x hx
      rcases List.mem_cons.mp hx with rfl | hx
      · exact hgood
      · exact hothers x hx

/-- Printed items between brackets are read as a list or an object of what they were printed from. -/
theorem bracketed_commaed {item : Rule α} {build : List α → β} {written : γ → List Char} {value : γ → α}
    {Good : γ → Prop} {opening closing : Token} (hclosing : closing = .closeBracket ∨ closing = .closeBrace)
    (hempty : ∀ {c r}, c.rest.head? = closing.text.toList.head? → item c ≠ .ok r) {gs : List γ}
    (hitem : ∀ g ∈ gs, ∀ {c d a tail}, c.rest = written g ++ tail → Apart tail → item c = .ok (a, d) →
      Good g ∧ a = value g ∧ d.rest = tail)
    (hstart : ∀ g ∈ gs, ∀ rest, Flush (written g ++ rest) ∧ (written g ++ rest).head? ≠ closing.text.toList.head?)
    {b : β} {tail : List Char}
    (hc : c.rest = opening.text.toList ++ commaed (gs.map written) ++ closing.text.toList ++ tail) (ht : Flush tail)
    (h : bracketed s.retry opening closing item build c = .ok (b, d)) :
    (∀ g ∈ gs, Good g) ∧ b = build (gs.map value) ∧ d.rest = tail := by
  obtain ⟨items, c', e, f, hopen, -, hitems, hclose, rfl, rfl⟩ := bracketed_eq_ok h
  have hapart : Apart (closing.text.toList ++ tail) :=
    apart_punctuation (by rcases hclosing with rfl | rfl <;> rfl) (.self _) tail
  have hflush := flush_separated (separated_commaed (gs.map written)) (fun g hg rest => (hstart g hg rest).1) hapart.flush
  rw [List.append_assoc, List.append_assoc] at hc
  have hinner := (Lexeme.token_eq_ok hopen).rest_eq (w := []) hc Blanks.nil hflush
  obtain ⟨hgood, rfl, hend⟩ := items_commaed hclosing hempty hitem hstart hitems hinner hclose
  exact ⟨hgood, rfl, (Lexeme.token_eq_ok hclose).rest_eq (w := []) hend Blanks.nil ht⟩

/-! ### Printed values -/

theorem reads_of_rest_eq {text tail : List Char} (hc : c.rest = text ++ tail) :
    c.Reads text (c.past text) ∧ (c.past text).rest = tail :=
  ⟨.of_rest hc, Cursor.rest_past hc⟩

/-- No numeral starts where an infinite number is printed. -/
theorem not_passes_infinity {n : Numeral} (hn : n.WellFormed) {negative : Bool} {tail : List Char}
    (hc : c.rest = (if negative then ['-'] else []) ++ ['i', 'n', 'f'] ++ tail) : ¬c.Passes n.text d := by
  rintro ⟨⟨rest, hrest⟩, -⟩
  obtain ⟨x, xs, hx, htext | htext⟩ := Lexeme.numeral_starts hn
  · rw [hrest, htext] at hc
    cases negative with
    | true =>
      obtain rfl := (List.cons.inj hc).1
      exact absurd hx (by decide)
    | false =>
      obtain rfl := (List.cons.inj hc).1
      exact absurd hx (by decide)
  · rw [hrest, htext] at hc
    cases negative with
    | true =>
      obtain rfl := (List.cons.inj (List.cons.inj hc).2).1
      exact absurd hx (by decide)
    | false => exact nomatch (List.cons.inj hc).1

/-- A finite number is read back, and no other number is read at all. -/
theorem number_chars {x y : Binary64} {tail : List Char} (hc : c.rest = x.chars ++ tail) (ht : Apart tail)
    (h : Lexeme.number c = .ok (y, d)) : x.isFinite = true ∧ y = x ∧ d.rest = tail := by
  obtain ⟨n, hn, -, hpasses⟩ := Lexeme.number_eq_ok h
  by_cases hfinite : x.isFinite = true
  · rw [chars_of_isFinite hfinite] at hc
    obtain ⟨hreads, hpast⟩ := reads_of_rest_eq hc
    have hread := Lexeme.number_of_reads x.wellFormed_numeral (.self _) hreads (hpast.symm ▸ ht)
    obtain ⟨rfl, rfl⟩ := Prod.mk.inj (Except.ok.inj (hread.symm.trans h))
    exact ⟨hfinite, Binary64.value_numeral hfinite, hpast⟩
  · unfold Binary64.chars at hc
    split at hc
    · obtain ⟨⟨rest, hrest⟩, -⟩ := hpasses
      obtain ⟨z, zs, hz, hstart⟩ := Lexeme.head?_numeral hn
      rw [hrest, hz] at hc
      obtain rfl := (List.cons.inj hc).1
      exact absurd hstart (by decide)
    · exact absurd hpasses (not_passes_infinity hn hc)

theorem literalForm_word_chars {t : Token} {v : Value} {tail : List Char} {u : Value}
    (hc : c.rest = t.text.toList ++ tail) (ht : Apart tail)
    (h : (do token t; return v : Rule Value) c = .ok (u, d)) : u = v ∧ d.rest = tail := by
  obtain ⟨⟨⟩, c1, hword, hpure⟩ := bind_eq_ok.mp h
  obtain ⟨rfl, rfl⟩ := Prod.mk.inj (Except.ok.inj hpure)
  exact ⟨rfl, (Lexeme.token_eq_ok (token_eq_ok.mp hword)).rest_eq (w := []) hc Blanks.nil ht.flush⟩

theorem member_chars {value : Rule Value} {m : String × Value} {tail : List Char} {p : String × Value}
    (hvalue : ∀ {c d u}, c.rest = m.2.chars ++ tail → value c = .ok (u, d) → m.2.IsLiteral ∧ u = m.2 ∧ d.rest = tail)
    (hc : c.rest = memberChars m ++ tail) (h : member value c = .ok (p, d)) :
    m.2.IsLiteral ∧ p = m ∧ d.rest = tail := by
  obtain ⟨key, c1, hkey, h⟩ := bind_eq_ok.mp h
  obtain ⟨⟨⟩, c2, hcolon, h⟩ := bind_eq_ok.mp h
  obtain ⟨u, c3, hu, h⟩ := bind_eq_ok.mp h
  obtain ⟨rfl, rfl⟩ := Prod.mk.inj (Except.ok.inj h)
  have hrest : c.rest = Quoted.encode m.1.toList ++ (Token.colon.text.toList ++ ([' '] ++ (m.2.chars ++ tail))) := by
    rw [hc, memberChars, List.append_assoc, List.append_assoc]
    rfl
  obtain ⟨hreads, hpast⟩ := reads_of_rest_eq hrest
  have hkeyText : Key (Quoted.encode m.1.toList) m.1 := ⟨_, Quoted.body_encodeBody _, .self _⟩
  have hapart : Apart (Token.colon.text.toList ++ ([' '] ++ (m.2.chars ++ tail))) := apart_punctuation rfl (.self _) _
  have hquoted := Lexeme.quoted_of_reads hkeyText hreads (hpast.symm ▸ hapart.flush)
  obtain ⟨rfl, rfl⟩ := Prod.mk.inj (Except.ok.inj (hquoted.symm.trans (lexeme_eq_ok.mp hkey)))
  have hbehind := (Lexeme.token_eq_ok (token_eq_ok.mp hcolon)).rest_eq hpast (by decide) (m.2.flush_chars tail)
  obtain ⟨hgood, rfl, hend⟩ := hvalue hbehind hu
  exact ⟨hgood, rfl, hend⟩

theorem list_chars {within : Nat} {items : List Value} {tail : List Char} {u : Value}
    (hitem : ∀ v ∈ items, ∀ {c d a tail}, c.rest = v.chars ++ tail → Apart tail →
      literalWithin s within c = .ok (a, d) → v.IsLiteral ∧ a = id v ∧ d.rest = tail)
    (hc : c.rest = (Value.list items).chars ++ tail) (ht : Apart tail)
    (h : list s (literalWithin s within) c = .ok (u, d)) :
    (Value.list items).IsLiteral ∧ u = .list items ∧ d.rest = tail := by
  rw [chars_list] at hc
  have hlist : bracketed s.retry .openBracket .closeBracket (literalWithin s within) Value.list c = .ok (u, d) := h
  have hrest : c.rest = Token.openBracket.text.toList ++ commaed (items.map chars) ++
    Token.closeBracket.text.toList ++ tail := hc
  have hempty : ∀ {c r}, c.rest.head? = Token.closeBracket.text.toList.head? → literalWithin s within c ≠ .ok r := by
    intro c r hhead hok
    obtain ⟨-, g, z, -, -, hz, hg⟩ := literalWithin_eq_ok hok
    obtain rfl := Option.some.inj (hhead.symm.trans hz)
    exact g.not_startsWith (by decide) (by decide) hg
  have hstart : ∀ v ∈ items, ∀ rest,
      Flush (v.chars ++ rest) ∧ (v.chars ++ rest).head? ≠ Token.closeBracket.text.toList.head? := by
    intro v _ rest
    refine ⟨v.flush_chars rest, fun hhead => ?_⟩
    obtain ⟨z, hz, -, -, hne⟩ := v.head?_chars rest
    exact hne (Option.some.inj (hz.symm.trans hhead))
  obtain ⟨hgood, rfl, hend⟩ := bracketed_commaed (Or.inl rfl) hempty hitem hstart hrest ht.flush hlist
  exact ⟨isLiteral_list_iff.mpr hgood, by rw [List.map_id], hend⟩

theorem object_chars {value : Rule Value} {members : List (String × Value)} {tail : List Char} {u : Value}
    (hmember : ∀ m ∈ members, ∀ {c d a tail}, c.rest = memberChars m ++ tail → Apart tail →
      member value c = .ok (a, d) → m.2.IsLiteral ∧ a = id m ∧ d.rest = tail)
    (hdistinct : (Members.mk members).Distinct) (hc : c.rest = (Value.object ⟨members⟩).chars ++ tail) (ht : Apart tail)
    (h : object s value c = .ok (u, d)) :
    (Value.object ⟨members⟩).IsLiteral ∧ u = .object ⟨members⟩ ∧ d.rest = tail := by
  rw [chars_object] at hc
  have hobject : bracketed s.retry .openBrace .closeBrace (member value) (Value.object ∘ Members.ofList) c =
    .ok (u, d) := h
  have hrest : c.rest = Token.openBrace.text.toList ++ commaed (members.map memberChars) ++
    Token.closeBrace.text.toList ++ tail := hc
  have hempty : ∀ {c r}, c.rest.head? = Token.closeBrace.text.toList.head? → member value c ≠ .ok r := by
    intro c r hhead
    refine ((refuses_lexeme (Lexeme.quoted_refuses fun x hx => ?_)).bind _).not_ok r
    obtain rfl := Option.some.inj (hhead.symm.trans hx)
    decide
  have hstart : ∀ m ∈ members, ∀ rest,
      Flush (memberChars m ++ rest) ∧ (memberChars m ++ rest).head? ≠ Token.closeBrace.text.toList.head? := by
    intro m _ rest
    have hquote : (memberChars m ++ rest).head? = some '"' := rfl
    exact ⟨flush_cons (by decide), by rw [hquote]; decide⟩
  obtain ⟨hgood, rfl, hend⟩ := bracketed_commaed (Or.inr rfl) hempty hmember hstart hrest ht.flush hobject
  have hsame : Members.ofList members = ⟨members⟩ := Members.ofList_toList hdistinct
  exact ⟨isLiteral_object_iff.mpr hgood, by rw [List.map_id, Function.comp_apply, hsame], hend⟩

theorem form?_of_literalWithin {v : Value} {tail : List Char} {levels : Nat} {r : Value × Cursor}
    (hc : c.rest = v.chars ++ tail) (h : literalWithin s levels c = .ok r) :
    ∃ within f, v.form? = some f ∧ literalForm s (literalWithin s within) f c = .ok r := by
  obtain ⟨within, f, y, -, hform, hy, hf⟩ := literalWithin_eq_ok h
  rw [hc] at hy
  exact ⟨within, f, form?_of_chars hy hf, hform⟩

/-- What is read from the characters of a printed value is that value, which then is a literal. -/
theorem literalWithin_chars {v : Value} (hk : v.DistinctKeys) {tail : List Char} {levels : Nat} {u : Value}
    (hc : c.rest = v.chars ++ tail) (ht : Apart tail) (h : literalWithin s levels c = .ok (u, d)) :
    v.IsLiteral ∧ u = v ∧ d.rest = tail := by
  induction v using Value.induction generalizing c d tail levels u with
  | number x =>
    obtain ⟨within, _, ⟨⟩, hform⟩ := form?_of_literalWithin hc h
    obtain ⟨z, c1, hz, hpure⟩ := bind_eq_ok.mp hform
    obtain ⟨rfl, rfl⟩ := Prod.mk.inj (Except.ok.inj hpure)
    rw [chars] at hc
    obtain ⟨hfinite, rfl, hend⟩ := number_chars hc ht (lexeme_eq_ok.mp hz)
    exact ⟨isLiteral_number_iff.mpr hfinite, rfl, hend⟩
  | string t =>
    obtain ⟨within, f, hf, -⟩ := form?_of_literalWithin hc h
    cases hf
  | boolean b =>
    obtain ⟨within, _, ⟨⟩, hform⟩ := form?_of_literalWithin hc h
    have hword : (boolean b).chars = (if b then Token.trueWord else .falseWord).text.toList := by
      cases b <;> rfl
    obtain ⟨rfl, hend⟩ := literalForm_word_chars (hword ▸ hc) ht hform
    exact ⟨isLiteral_boolean b, rfl, hend⟩
  | null =>
    obtain ⟨within, _, ⟨⟩, hform⟩ := form?_of_literalWithin hc h
    rw [chars] at hc
    obtain ⟨rfl, hend⟩ := literalForm_word_chars hc ht hform
    exact ⟨isLiteral_null, rfl, hend⟩
  | list items ih =>
    obtain ⟨within, _, ⟨⟩, hform⟩ := form?_of_literalWithin hc h
    exact list_chars (fun v hv _ _ _ _ => ih v hv (hk.item hv)) hc ht hform
  | object members ih =>
    obtain ⟨within, _, ⟨⟩, hform⟩ := form?_of_literalWithin hc h
    refine object_chars (fun m hm _ _ _ _ hrest htail => ?_) (hk ⟨members⟩ (.self _)) hc ht hform
    exact member_chars (fun hvalue => ih m hm (hk.member hm) hvalue htail) hrest

end Rule

/-! ### Whole texts -/

namespace Value

open Rule

variable {v : Value} {limits : Limits}

theorem rest_entry_text (v : Value) (limits : Limits) : (Cursor.entry limits v.text).rest = v.chars ++ [] := by
  have hflush : Flush v.chars := List.append_nil v.chars ▸ v.flush_chars []
  have htext : v.text.toList = [] ++ v.chars := String.toList_ofList
  rw [(Cursor.reads_entry_of_eq limits Blanks.nil htext hflush).2, List.append_nil]

/-- A printed value is parsed exactly if a literal can write the value, and never as another value. -/
theorem parse_text_exact (hkeys : v.DistinctKeys) (hsize : v.text.utf8ByteSize ≤ limits.textSize)
    (hdepth : v.nesting ≤ limits.depth) :
    ((∃ u, Value.parse limits v.text = .ok u) ↔ v.IsLiteral) ∧ ∀ u, Value.parse limits v.text = .ok u → u = v := by
  have hrest := v.rest_entry_text limits
  have hread : ∀ u, Value.parse limits v.text = .ok u → v.IsLiteral ∧ u = v := by
    intro u hu
    obtain ⟨d, hd, -⟩ := (parse_eq_ok_iff_ends hsize).mp hu
    obtain ⟨hliteral, rfl, -⟩ := literalWithin_chars hkeys hrest apart_nil hd
    exact ⟨hliteral, rfl⟩
  refine ⟨⟨fun ⟨u, hu⟩ => (hread u hu).1, fun hliteral => ⟨v, ?_⟩⟩, fun u hu => (hread u hu).2⟩
  obtain ⟨hreads, hpast⟩ := reads_of_rest_eq hrest
  have hlevels : (Cursor.entry limits v.text).depth + v.nesting ≤ (Cursor.entry limits v.text).depthLimit := by
    rw [Cursor.depth_entry, Nat.zero_add]
    exact hdepth
  have hok := literalWithin_of_literal Strategy.thorough_standard (literal_chars hliteral hkeys) v.closed_chars
    (Cursor.valid_entry limits v.text) hreads (hpast ▸ apart_nil) hlevels (Nat.le_refl _)
  exact (parse_eq_ok_iff_ends hsize).mpr ⟨_, hok, hpast ▸ Blanks.nil⟩

/-- An object with a quote in a key is read back, and a string is not. -/
theorem parse_text_object :
    Value.parse ⟨64, 2⟩ (object ⟨[("\"", list [null])]⟩).text = .ok (object ⟨[("\"", list [null])]⟩) ∧
      ∀ u, Value.parse ⟨64, 2⟩ (string "s").text ≠ .ok u := by
  have hkeys : (object ⟨[("\"", list [null])]⟩).DistinctKeys := by
    rintro members (_ | _ | ⟨hm, hv⟩)
    · exact List.pairwise_singleton _ _
    · obtain rfl := (Prod.mk.inj (List.mem_singleton.mp hm)).2
      rcases hv with _ | ⟨hn, hv⟩
      obtain rfl := List.mem_singleton.mp hn
      cases hv
  have hliteral : (object ⟨[("\"", list [null])]⟩).IsLiteral := by
    refine isLiteral_object_iff.mpr fun m hm => ?_
    obtain rfl := List.mem_singleton.mp hm
    refine isLiteral_list_iff.mpr fun v hv => ?_
    obtain rfl := List.mem_singleton.mp hv
    exact isLiteral_null
  constructor
  · obtain ⟨hok, hsame⟩ := @parse_text_exact _ ⟨64, 2⟩ hkeys (by decide) (by decide)
    obtain ⟨u, hu⟩ := hok.mpr hliteral
    rw [hu, hsame u hu]
  · intro u hu
    have hkeys : (string "s").DistinctKeys := by
      rintro members ⟨⟩
    have hstring := (@parse_text_exact _ ⟨64, 2⟩ hkeys (by decide) (by decide)).1.mp ⟨u, hu⟩
    exact hstring.noString "s" (.self _)

end Value

end RequestDoc

import RequestDoc.Proofs.Rule.Dispatch
import RequestDoc.Proofs.Text.Brackets

/-!
Every literal is read. A text that writes a value is read as that value where no word goes on behind it,
provided that its brackets nest no deeper than the limit allows. The induction follows the grammar: a form
is told by the first character of the text, and the separated items of a list and the members of an object
are the row of items that the rule reads.
-/

namespace RequestDoc

open Grammar Nesting

variable {α β γ : Type} {s : Strategy} {c d e : Cursor}

/-! ### Where a literal starts -/

/-- The form in which a value is written. A string alone is not. -/
def Value.form? : Value → Option LiteralForm
  | number _ => some .number
  | object _ => some .object
  | list _ => some .list
  | boolean b => some (.boolean b)
  | null => some .null
  | string _ => none

/-- A literal starts with a character that tells its form. -/
theorem literal_startsWith {text : List Char} {v : Value} (h : Literal text v) :
    ∃ f x, v.form? = some f ∧ f.StartsWith x ∧ ∀ rest, (text ++ rest).head? = some x := by
  cases h with
  | number hn ht =>
    obtain ⟨x, xs, hx, hstart⟩ := Lexeme.head?_numeral hn
    obtain ⟨w, -, rfl⟩ := ht
    exact ⟨.number, x, rfl, hstart, fun rest => by rw [hx]; rfl⟩
  | @boolean b _ ht =>
    cases b with
    | true => exact ⟨.boolean true, 't', rfl, rfl, fun rest => head?_punctuation ht rest⟩
    | false => exact ⟨.boolean false, 'f', rfl, rfl, fun rest => head?_punctuation ht rest⟩
  | null ht => exact ⟨.null, 'n', rfl, rfl, fun rest => head?_punctuation ht rest⟩
  | list items hl _ _ _ =>
    refine ⟨.list, '[', rfl, rfl, fun rest => ?_⟩
    rw [List.append_assoc, List.append_assoc]
    exact head?_punctuation hl _
  | object members hl _ _ _ _ =>
    refine ⟨.object, '{', rfl, rfl, fun rest => ?_⟩
    rw [List.append_assoc, List.append_assoc]
    exact head?_punctuation hl _

theorem flush_literal {text : List Char} {v : Value} (h : Literal text v) (rest : List Char) :
    Flush (text ++ rest) := by
  obtain ⟨f, x, -, hf, hx⟩ := literal_startsWith h
  intro y hy
  obtain rfl := Option.some.inj ((hx rest).symm.trans hy)
  exact f.isBlank_of_startsWith hf

theorem flush_member {m : Member} (h : Key m.keyText m.key) (rest : List Char) : Flush (m.text ++ rest) := by
  obtain ⟨raw, -, w, -, hw⟩ := h
  rw [Member.text, hw]
  exact flush_cons (by decide)

/-! ### The brackets of a literal -/

theorem closed_key {text : List Char} {key : String} (h : Key text key) : Closed text 0 := by
  obtain ⟨raw, hb, ht⟩ := h
  exact closed_spaced (closed_quoted hb) ht

theorem closed_member {m : Member} {n : Nat} (hk : Key m.keyText m.key) (hc : Punctuation .colon m.colon)
    (hv : Closed m.valueText n) : Closed m.text n := by
  have hcolon : Closed m.colon 0 := closed_spaced (Plain.closed (by decide)) hc
  have := ((closed_key hk).append hcolon).append hv
  rwa [Nat.max_self, Nat.zero_max] at this

theorem closed_literal {text : List Char} {v : Value} (h : Literal text v) : ∃ n, Closed text n := by
  induction h with
  | number hn ht => exact ⟨0, closed_spaced (plain_numeral hn).closed ht⟩
  | @boolean b _ ht =>
    cases b with
    | true => exact ⟨0, closed_spaced (Plain.closed (by decide)) ht⟩
    | false => exact ⟨0, closed_spaced (Plain.closed (by decide)) ht⟩
  | null ht => exact ⟨0, closed_spaced (Plain.closed (by decide)) ht⟩
  | list items hl _ hs hr ih =>
    obtain ⟨m, hm, -⟩ := closed_separated hs fun text ht => by
      obtain ⟨item, hi, rfl⟩ := List.mem_map.mp ht
      exact ih item hi
    exact ⟨m + 1, hm.brackets (Or.inl rfl) (Or.inl rfl) hl hr⟩
  | object members hl hkeys _ hs hr ih =>
    obtain ⟨m, hm, -⟩ := closed_separated hs fun text ht => by
      obtain ⟨member, hmem, rfl⟩ := List.mem_map.mp ht
      obtain ⟨n, hn⟩ := ih member hmem
      exact ⟨n, closed_member (hkeys member hmem).1 (hkeys member hmem).2 hn⟩
    exact ⟨m + 1, hm.brackets (Or.inr rfl) (Or.inr rfl) hl hr⟩

namespace Rule

/-! ### Items between brackets -/

theorem separated_starts {first inner : List Char} {texts : List (List Char)}
    (h : Separated (first :: texts) inner) : ∃ more, inner = first ++ more := by
  cases h with
  | one => exact ⟨[], (List.append_nil _).symm⟩
  | more => exact ⟨_, List.append_assoc ..⟩

theorem flush_separated {written : γ → List Char} {gs : List γ} {inner rest : List Char}
    (h : Separated (gs.map written) inner) (hstart : ∀ g ∈ gs, ∀ rest, Flush (written g ++ rest))
    (hrest : Flush rest) : Flush (inner ++ rest) := by
  cases gs with
  | nil =>
    cases h
    exact hrest
  | cons g gs =>
    obtain ⟨more, rfl⟩ := separated_starts h
    rw [List.append_assoc]
    exact hstart g List.mem_cons_self _

/-- Separated items are a row of items if the rule reads each of them. -/
theorem items_of_separated {item : Rule α} {written : γ → List Char} {value : γ → α} {gs : List γ}
    {inner : List Char} (hs : Separated (gs.map written) inner) (h : c.Reads inner d) (hd : Apart d.rest)
    (hstart : ∀ g ∈ gs, ∀ rest, Flush (written g ++ rest))
    (hitem : ∀ g ∈ gs, ∀ {before c' d'}, c.Reads before c' → c'.Reads (written g) d' → Apart d'.rest →
      item c' = .ok (value g, d')) : Items item c (gs.map value) d := by
  generalize htexts : gs.map written = texts at hs
  induction hs generalizing gs c with
  | nil =>
    obtain rfl := List.map_eq_nil_iff.mp htexts
    obtain rfl := h.unique (.refl c)
    exact .none _
  | one text =>
    obtain ⟨g, rfl, rfl⟩ := List.map_eq_singleton_iff.mp htexts
    exact .one (hitem g List.mem_cons_self (.refl c) h hd)
  | @more _ comma _ _ rest hcomma hrest ih =>
    have hcomma : Punctuation .comma comma := hcomma
    rcases gs with _ | ⟨g, _ | ⟨g', gs⟩⟩
    · cases htexts
    · cases htexts
    · obtain ⟨rfl, hnext⟩ := List.cons.inj htexts
      obtain ⟨c2, h12, h3⟩ := h.split
      obtain ⟨c1, h1, h2⟩ := h12.split
      have hapart : Apart c1.rest := h2.rest ▸ apart_punctuation rfl hcomma c2.rest
      have hstart' : ∀ x ∈ g' :: gs, ∀ rest, Flush (written x ++ rest) :=
        fun x hx => hstart x (List.mem_cons_of_mem g hx)
      have hflush : Flush c2.rest := by
        rw [← hnext] at hrest
        exact h3.rest ▸ flush_separated hrest hstart' hd.flush
      refine .more (hitem g List.mem_cons_self (.refl c) h1 hapart)
        (Lexeme.mark_of_reads rfl hcomma h2 hflush) ?_
      exact ih h3 hstart' (fun x hx _ _ _ hb => hitem x (List.mem_cons_of_mem g hx) (h12.trans hb)) hnext

theorem bracketed_of_items (hs : s.Thorough) {opening closing : Token} {item : Rule α} (hm : item.Moves)
    (build : List α → β) {as : List α} {c1 c2 : Cursor} (hopen : token opening c = .ok ((), c1)) (hv : c1.Valid)
    (hlt : c1.depth < c1.depthLimit) (hitems : Items item (c1.withDepth (c1.depth + 1)) as c2)
    (hempty : as = [] → item.Refuses (c1.withDepth (c1.depth + 1))) (hcomma : c2.rest.head? ≠ some ',')
    (hclose : token closing c2 = .ok ((), e)) :
    bracketed s.retry opening closing item build c = .ok (build as, e.withDepth c1.depth) := by
  have hnocomma : (token .comma).Refuses c2 := refuses_token_of_head hcomma
  have hrow := sepBy_of_items hm hitems (hv.withDepth _) (fun has => (hempty has).yields hs) (hnocomma.yields hs)
  refine bind_eq_ok.mpr ⟨(), c1, hopen, nested_eq_ok.mpr ⟨hlt, e, ?_, rfl⟩⟩
  exact bind_eq_ok.mpr ⟨as, c2, hrow, bind_eq_ok.mpr ⟨(), e, hclose, rfl⟩⟩

/-- Separated items between brackets are read as a list or an object. -/
theorem bracketed_of_separated (hs : s.Thorough) {opening closing : Token} (hopening : opening.isKeyword = false)
    (hclosing : closing.isKeyword = false) (hcomma : closing.text.toList.head? ≠ some ',') {item : Rule α}
    (hm : item.Moves) {build : List α → β} {written : γ → List Char} {value : γ → α} {gs : List γ}
    {left inner right : List Char} (hl : Punctuation opening left) (hsep : Separated (gs.map written) inner)
    (hr : Punctuation closing right) (hv : c.Valid) (h : c.Reads (left ++ inner ++ right) d) (hd : Flush d.rest)
    (hlt : c.depth < c.depthLimit) (hstart : ∀ g ∈ gs, ∀ rest, Flush (written g ++ rest))
    (hitem : ∀ g ∈ gs, ∀ {c' d'}, c'.Valid → c'.depth = c.depth + 1 → c'.depthLimit = c.depthLimit →
      c'.Reads (written g) d' → Apart d'.rest → item c' = .ok (value g, d'))
    (hempty : ∀ {e : Cursor}, e.rest.head? = closing.text.toList.head? → item.Refuses e) :
    bracketed s.retry opening closing item build c = .ok (build (gs.map value), d) := by
  obtain ⟨c2, h12, h3⟩ := h.split
  obtain ⟨c1, h1, h2⟩ := h12.split
  have hv1 := h1.valid hv
  have hdepth1 := h1.depth
  have hlimit1 := h1.depthLimit
  have hright : Apart c2.rest := h3.rest ▸ apart_punctuation hclosing hr d.rest
  have hend : c2.rest.head? = closing.text.toList.head? := h3.rest ▸ head?_punctuation hr d.rest
  have hflush : Flush c1.rest := h2.rest ▸ flush_separated hsep hstart hright.flush
  have hitems : Items item (c1.withDepth (c1.depth + 1)) (gs.map value) (c2.withDepth (c1.depth + 1)) := by
    refine items_of_separated hsep (h2.withDepth _) hright hstart fun g hg before c' d' hb hr' hd' => ?_
    have hdepth : c'.depth = c1.depth + 1 := hb.depth
    exact hitem g hg (hb.valid (hv1.withDepth _)) (hdepth.trans (by omega)) (hb.depthLimit.trans hlimit1) hr' hd'
  have hrefuses : gs.map value = [] → item.Refuses (c1.withDepth (c1.depth + 1)) := by
    intro hnil
    obtain rfl := List.map_eq_nil_iff.mp hnil
    cases hsep
    obtain rfl := h2.unique (.refl c1)
    exact hempty hend
  have hclose := token_of_mark hclosing hr (h3.withDepth (c1.depth + 1)) hd
  have hread := bracketed_of_items hs hm build (token_of_mark hopening hl h1 hflush) hv1 (by omega) hitems hrefuses
    (fun hhead => hcomma (hend.symm.trans hhead)) hclose
  rw [hread, ← h2.depth, ← h3.depth]
  rfl

theorem member_of_reads {value : Rule Value} {m : Member} (hk : Key m.keyText m.key)
    (hc : Punctuation .colon m.colon) (h : c.Reads m.text d) (hstart : ∀ rest, Flush (m.valueText ++ rest))
    (hv : ∀ {c'}, c.Reads (m.keyText ++ m.colon) c' → c'.Reads m.valueText d → value c' = .ok (m.value, d)) :
    member value c = .ok (m.pair, d) := by
  obtain ⟨c2, h12, h3⟩ := Cursor.Reads.split h
  obtain ⟨c1, h1, h2⟩ := h12.split
  have hcolon : Apart c1.rest := h2.rest ▸ apart_punctuation rfl hc c2.rest
  have hkey := Lexeme.quoted_of_reads hk h1 hcolon.flush
  have hmark := token_of_mark rfl hc h2 (h3.rest ▸ hstart d.rest)
  exact bind_eq_ok.mpr ⟨m.key, c1, lexeme_eq_ok.mpr hkey,
    bind_eq_ok.mpr ⟨(), c2, hmark, bind_eq_ok.mpr ⟨m.value, d, hv h12 h3, rfl⟩⟩⟩

theorem literalWithin_of_form? (hs : s.Thorough) {text : List Char} {v : Value} (h : Literal text v)
    (hr : c.Reads text d) {f : LiteralForm} (hf : v.form? = some f) {levels : Nat} {r : Value × Cursor}
    (hok : literalForm s (literalWithin s levels) f c = .ok r) : literalWithin s (levels + 1) c = .ok r := by
  obtain ⟨g, x, hg, hstart, hx⟩ := literal_startsWith h
  obtain rfl := Option.some.inj (hf.symm.trans hg)
  exact literalWithin_of_form hs (hr.rest ▸ hx d.rest) hstart hok final_ok

/-- A text that writes a value is read as that value, behind which no word goes on. -/
theorem literalWithin_of_literal (hs : s.Thorough) {text : List Char} {v : Value} (h : Literal text v)
    {n levels : Nat} (hn : Closed text n) (hv : c.Valid) (hr : c.Reads text d) (hd : Apart d.rest)
    (hdepth : c.depth + n ≤ c.depthLimit) (hlevels : c.depthLimit ≤ levels + c.depth) :
    literalWithin s (levels + 1) c = .ok (v, d) := by
  induction h generalizing c d n levels with
  | number hw ht =>
    have hnumber := Lexeme.number_of_reads hw ht hr hd
    exact literalWithin_of_form? hs (.number hw ht) hr rfl (bind_eq_ok.mpr ⟨_, d, lexeme_eq_ok.mpr hnumber, rfl⟩)
  | boolean ht =>
    have hword := Lexeme.word_of_reads ht hr hd
    exact literalWithin_of_form? hs (.boolean ht) hr rfl (bind_eq_ok.mpr ⟨(), d, token_eq_ok.mpr hword, rfl⟩)
  | null ht =>
    have hword := Lexeme.word_of_reads ht hr hd
    exact literalWithin_of_form? hs (.null ht) hr rfl (bind_eq_ok.mpr ⟨(), d, token_eq_ok.mpr hword, rfl⟩)
  | @list left inner right items hl hitems hsep hright ih =>
    obtain ⟨m, hm, hle⟩ := closed_separated hsep fun text ht => by
      obtain ⟨item, hi, rfl⟩ := List.mem_map.mp ht
      exact closed_literal (hitems item hi)
    have hnm : n = m + 1 := hn.deepest_eq.symm.trans (hm.brackets (Or.inl rfl) (Or.inl rfl) hl hright).deepest_eq
    obtain ⟨k, rfl⟩ : ∃ k, levels = k + 1 := ⟨levels - 1, by omega⟩
    refine literalWithin_of_form? hs (.list items hl hitems hsep hright) hr rfl ?_
    show bracketed s.retry .openBracket .closeBracket (literalWithin s (k + 1)) Value.list c = _
    refine bracketed_of_separated hs rfl rfl (by decide) (moves_literalWithin s _) hl hsep hright hv hr hd.flush
      (by omega) (fun item hi rest => flush_literal (hitems item hi) rest) ?_ ?_
    · intro item hi c' d' hv' hdepth' hlimit' hr' hd'
      obtain ⟨j, hj⟩ := closed_literal (hitems item hi)
      have := hle _ (List.mem_map_of_mem hi) j hj
      exact ih item hi hj hv' hr' hd' (by omega) (by omega)
    · intro e he
      refine refuses_literalWithin (fun x hx f => ?_) k
      obtain rfl := Option.some.inj (he.symm.trans hx)
      exact f.not_startsWith (by decide) (by decide)
  | @object left inner right members hl hkeys hvalues hsep hright ih =>
    obtain ⟨m, hm, hle⟩ := closed_separated hsep fun text ht => by
      obtain ⟨member, hmem, rfl⟩ := List.mem_map.mp ht
      obtain ⟨j, hj⟩ := closed_literal (hvalues member hmem)
      exact ⟨j, closed_member (hkeys member hmem).1 (hkeys member hmem).2 hj⟩
    have hnm : n = m + 1 := hn.deepest_eq.symm.trans (hm.brackets (Or.inr rfl) (Or.inr rfl) hl hright).deepest_eq
    obtain ⟨k, rfl⟩ : ∃ k, levels = k + 1 := ⟨levels - 1, by omega⟩
    refine literalWithin_of_form? hs (.object members hl hkeys hvalues hsep hright) hr rfl ?_
    show bracketed s.retry .openBrace .closeBrace (member (literalWithin s (k + 1))) (Value.object ∘ Members.ofList) c = _
    refine bracketed_of_separated hs rfl rfl (by decide) (moves_literalWithin s _).member hl hsep hright hv hr hd.flush
      (by omega) (fun x hx rest => flush_member (hkeys x hx).1 rest) ?_ ?_
    · intro x hx c' d' hv' hdepth' hlimit' hr' hd'
      obtain ⟨hkey, hcolon⟩ := hkeys x hx
      obtain ⟨j, hj⟩ := closed_literal (hvalues x hx)
      have := hle _ (List.mem_map_of_mem hx) j (closed_member hkey hcolon hj)
      refine member_of_reads hkey hcolon hr' (flush_literal (hvalues x hx)) fun hbefore hvalue => ?_
      have := hbefore.depth
      have := hbefore.depthLimit
      exact ih x hx hj (hbefore.valid hv') hvalue hd' (by omega) (by omega)
    · intro e he
      refine (refuses_lexeme (Lexeme.quoted_refuses fun x hx => ?_)).bind _
      obtain rfl := Option.some.inj (he.symm.trans hx)
      decide

/-- Within the limit a text that writes a value is read as that value. -/
theorem literal_of_closed (hs : s.Thorough) {text : List Char} {v : Value} (h : Literal text v) {n : Nat}
    (hn : Closed text n) (hv : c.Valid) (hdepth : c.depth + n ≤ c.depthLimit) (hr : c.Reads text d) (hd : Apart d.rest) :
    literal s c = .ok (v, d) :=
  literalWithin_of_literal hs h hn hv hr hd hdepth (by omega)

/-- Where brackets have room, a text that writes a value is read as that value. -/
theorem literal_of_literal (hs : s.Thorough) {text : List Char} {v : Value} (h : Literal text v) (hv : c.Valid)
    (hroom : c.Roomy) (hr : c.Reads text d) (hd : Apart d.rest) : literal s c = .ok (v, d) := by
  obtain ⟨n, hn⟩ := closed_literal h
  have hlength := hroom.le hr
  have hlevels := deepest_le_length text
  rw [hn.deepest_eq] at hlevels
  exact literal_of_closed hs h hn hv (by omega) hr hd

end Rule

end RequestDoc

import RequestDoc.Grammar.Definition
import RequestDoc.Proofs.Literal.Contents
import RequestDoc.Proofs.TypeRef.Exact

/-!
Brackets in declarations. The declarations of a query close the brackets that they open, and the types and default
values that they write nest no more deeply than their text. The brace of a query is not counted among the brackets,
so the limit of a query is that of its parameters.
-/

namespace RequestDoc

open Grammar Nesting

variable {text : List Char} {place : Position}

/-! ### Parts of declarations -/

theorem closed_mark {t : Token} (ht : Punctuation t text) (hplain : Plain t.text.toList) : Closed text 0 :=
  closed_spaced hplain.closed ht

theorem closed_named {name : String} (h : Named text name) : Closed text 0 :=
  closed_spaced (Rule.plain_name h.1).closed h.2

theorem closed_reference {t : TypeRef} (h : Reference text t) : Closed text t.depth := by
  have hmark : ∀ {required mark}, SpacedAll (TypeRef.markWords required) mark → Closed mark 0 := by
    intro required mark hm
    cases required with
    | false =>
      cases hm
      exact closed_nil
    | true =>
      obtain ⟨bang, more, hbang, ⟨⟩, rfl⟩ := spacedAll_cons_iff.mp hm
      exact (closed_mark (t := .bang) hbang (by decide)).append closed_nil
  induction t generalizing text with
  | named name required =>
    obtain ⟨hname, hw⟩ := h
    obtain ⟨first, mark, hfirst, hm, rfl⟩ := TypeRef.spacedAll_named_iff.mp hw
    exact (closed_named ⟨hname, hfirst⟩).append (hmark hm)
  | list item required ih =>
    obtain ⟨hname, hw⟩ := h
    obtain ⟨left, inner, right, mark, hl, hi, hr, hm, rfl⟩ := TypeRef.spacedAll_list_iff.mp hw
    have hlist := ((ih ⟨hname, hi⟩).brackets (Or.inl rfl) (Or.inl rfl) hl hr).append (hmark hm)
    rwa [Nat.max_zero, List.append_assoc, List.append_assoc] at hlist

theorem closed_default {o : Option Value} (h : Default text o) : ∃ n, Closed text n ∧ ∀ v ∈ o, v.Written n := by
  cases h with
  | none => exact ⟨0, closed_nil, fun _ h => nomatch h⟩
  | some he hl =>
    obtain ⟨n, hn⟩ := closed_literal hl
    have htext := (closed_mark he (by decide)).append hn
    rw [Nat.zero_max] at htext
    refine ⟨n, htext, ?_⟩
    rintro _ ⟨⟩
    exact written_of_literal hl hn

/-! ### Declarations -/

/-- What a variable is like that is declared within the limit. -/
structure Variable.Written (limit : Nat) (x : Variable) : Prop where
  name : IsName x.type.baseName.text.toList
  type : x.type.depth ≤ limit
  value : ∀ v ∈ x.defaultValue, v.Written limit

theorem Variable.Written.mono {limit limit' : Nat} {x : Variable} (h : x.Written limit) (hle : limit ≤ limit') :
    x.Written limit' :=
  ⟨h.name, Nat.le_trans h.type hle, fun v hv => (h.value v hv).mono hle⟩

theorem closed_declaration {x : Variable} (h : Declaration place text x) : ∃ n, Closed text n ∧ x.Written n := by
  obtain ⟨hdollar, hname, hcolon, htype, hdefault⟩ := h
  obtain ⟨n, hn, hvalue⟩ := closed_default hdefault
  have hhead := ((closed_mark hdollar (by decide)).append (closed_named hname)).append (closed_mark hcolon (by decide))
  refine ⟨_, (hhead.append (closed_reference htype)).append hn, htype.1, ?_, fun v hv => (hvalue v hv).mono ?_⟩
  · exact Nat.le_trans (Nat.le_max_right _ _) (Nat.le_max_left _ _)
  · exact Nat.le_max_right _ _

theorem closed_declarations {xs : List Variable} (h : Declarations place text xs) :
    ∃ n, Closed text n ∧ ∀ x ∈ xs, x.Written n := by
  induction h with
  | none => exact ⟨0, closed_nil, fun _ h => nomatch h⟩
  | one hdecl =>
    obtain ⟨n, hn, hx⟩ := closed_declaration hdecl
    exact ⟨n, hn, fun y hy => List.mem_singleton.mp hy ▸ hx⟩
  | more hdecl hcomma _ ih =>
    obtain ⟨n, hn, hx⟩ := closed_declaration hdecl
    obtain ⟨m, hm, hxs⟩ := ih
    refine ⟨_, (hn.append (closed_mark hcomma (by decide))).append hm, fun y hy => ?_⟩
    rcases List.mem_cons.mp hy with rfl | hy
    · exact hx.mono (Nat.le_trans (Nat.le_max_left _ _) (Nat.le_max_left _ _))
    · exact (hxs y hy).mono (Nat.le_max_right _ _)

theorem closed_parameters {xs : List Variable} (h : Parameters place text xs) :
    ∃ n, Closed text n ∧ ∀ x ∈ xs, x.Written n := by
  cases h with
  | none => exact ⟨0, closed_nil, fun _ h => nomatch h⟩
  | some hl hi hr =>
    obtain ⟨n, hn, hxs⟩ := closed_declarations hi
    refine ⟨_, ((closed_mark hl (by decide)).append hn).append (closed_mark hr (by decide)), fun x hx => ?_⟩
    exact (hxs x hx).mono (Nat.le_trans (Nat.le_max_right _ _) (Nat.le_max_left _ _))

/-! ### Queries -/

/-- The text, which starts at a place, is a query that makes the operation, and its parameters nest within the
limit. -/
inductive Grammar.QueryWithin (limit : Nat) (place : Position) : List Char → Operation → Prop where
  | shorthand {left nameText right : List Char} {name : String} :
      Punctuation .openBrace left → Named nameText name → Punctuation .closeBrace right →
      QueryWithin limit place (left ++ nameText ++ right) (.ofHead place .query (some ⟨name⟩) [])
  | declared {keyword nameText parameters brace : List Char} {name : String} {xs : List Variable} {n : Nat} :
      Punctuation .query keyword → keyword ≠ Token.query.text.toList → Named nameText name →
      Parameters (place.advance (keyword ++ nameText)) parameters xs → Closed parameters n → n ≤ limit →
      Punctuation .openBrace brace →
      QueryWithin limit place (keyword ++ nameText ++ parameters ++ brace) (.ofHead place .query (some ⟨name⟩) xs)

variable {limit : Nat} {op : Operation}

theorem Grammar.QueryWithin.query (h : QueryWithin limit place text op) : Query place text op := by
  cases h with
  | shorthand hl hname hr => exact .shorthand hl hname hr
  | declared hk hne hname hparameters _ _ hbrace => exact .declared hk hne hname hparameters hbrace

/-- Every bracket takes a character, so every query is within the limit of its length. -/
theorem Grammar.Query.within (h : Query place text op) : QueryWithin text.length place text op := by
  cases h with
  | shorthand hl hname hr => exact .shorthand hl hname hr
  | declared hk hne hname hparameters hbrace =>
    obtain ⟨n, hn, -⟩ := closed_parameters hparameters
    refine .declared hk hne hname hparameters hn ?_ hbrace
    rw [← hn.deepest_eq]
    refine Nat.le_trans (deepest_le_length _) ?_
    simp only [List.length_append]
    omega

theorem Grammar.QueryWithin.written (h : QueryWithin limit place text op) : ∀ x ∈ op.declared, x.Written limit := by
  cases h with
  | shorthand => exact fun _ h => nomatch h
  | declared _ _ _ hparameters hn hle _ =>
    obtain ⟨m, hm, hxs⟩ := closed_parameters hparameters
    obtain rfl := hm.unique hn
    exact fun x hx => (hxs x hx).mono hle

end RequestDoc

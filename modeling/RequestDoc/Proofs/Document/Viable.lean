import RequestDoc.Proofs.Document.Exact
import RequestDoc.Proofs.Literal.Viable
import RequestDoc.Proofs.TypeRef.Viable

/-!
Definitions that break off. What was read of a definition is the start of a query within the limit, whether a name, a
type, a default value or a closing token is missing. The definitions in front of it are read the same if the text
behind them starts in the same way.
-/

namespace RequestDoc

open Grammar Nesting

variable {s : Strategy} {c d : Cursor} {limit : Nat} {place : Position}

/-! ### Parts of queries within a limit -/

/-- The text, which starts at a place, declares a variable with brackets within the limit. -/
structure Grammar.DeclarationWithin (limit : Nat) (place : Position) (text : List Char) : Prop where
  declaration : ∃ v, Declaration place text v
  closed : ClosedWithin limit text

/-- The text, which starts at a place, declares variables with brackets within the limit. -/
structure Grammar.DeclarationsWithin (limit : Nat) (place : Position) (text : List Char) : Prop where
  declarations : ∃ vs, Declarations place text vs
  closed : ClosedWithin limit text

/-- The text, which starts at a place, may stand between the name and the brace of a query within the limit. -/
structure Grammar.ParametersWithin (limit : Nat) (place : Position) (text : List Char) : Prop where
  parameters : ∃ vs, Parameters place text vs
  closed : ClosedWithin limit text

theorem closedWithin_mark {t : Token} {text : List Char} (h : Punctuation t text) (hplain : Plain t.text.toList) :
    ClosedWithin limit text :=
  ⟨0, closed_mark h hplain, Nat.zero_le limit⟩

theorem named_letter : Named ['a'] "a" :=
  ⟨Lexeme.isName_of_all rfl rfl, .self _⟩

theorem declarationWithin_of_parts (place : Position) {dollar nameText colon typeText defaultText : List Char} {name : String}
    {value : Option Value} (hdollar : Punctuation .dollar dollar) (hname : Named nameText name)
    (hcolon : Punctuation .colon colon) (htype : ReferenceWithin limit typeText) (hdefault : Default defaultText value)
    (hclosed : ClosedWithin limit defaultText) :
    DeclarationWithin limit place (dollar ++ (nameText ++ (colon ++ (typeText ++ defaultText)))) := by
  obtain ⟨t, hreference, hdepth⟩ := htype
  have htext : dollar ++ (nameText ++ (colon ++ (typeText ++ defaultText))) =
      dollar ++ nameText ++ colon ++ typeText ++ defaultText := by
    simp only [List.append_assoc]
  have hnamed : ClosedWithin limit nameText := ⟨0, closed_named hname, Nat.zero_le limit⟩
  have hhead := ((closedWithin_mark hdollar (by decide)).append hnamed).append (closedWithin_mark hcolon (by decide))
  rw [htext]
  exact ⟨⟨_, .mk hdollar hname hcolon hreference hdefault⟩,
    (hhead.append ⟨_, closed_reference hreference, hdepth⟩).append hclosed⟩

theorem parametersWithin_of_declarations {left inner : List Char} (hl : Punctuation .openParen left)
    (h : DeclarationsWithin limit (place.advance left) inner) :
    ParametersWithin limit place (left ++ (inner ++ Token.closeParen.text.toList)) := by
  obtain ⟨⟨vs, hvs⟩, hclosed⟩ := h
  have hright : Punctuation .closeParen Token.closeParen.text.toList := .self _
  rw [← List.append_assoc]
  exact ⟨⟨vs, .some hl hvs hright⟩,
    ((closedWithin_mark hl (by decide)).append hclosed).append (closedWithin_mark hright (by decide))⟩

theorem queryWithin_shorthand (limit : Nat) (place : Position) {left nameText right : List Char} {name : String}
    (hl : Punctuation .openBrace left) (hname : Named nameText name) (hr : Punctuation .closeBrace right) :
    ∃ op, QueryWithin limit place (left ++ (nameText ++ right)) op := by
  rw [← List.append_assoc]
  exact ⟨_, .shorthand hl hname hr⟩

theorem queryWithin_declared (place : Position) {keyword nameText parameters brace : List Char} {name : String}
    (hk : Punctuation .query keyword) (hne : keyword ≠ Token.query.text.toList) (hname : Named nameText name)
    (hparameters : ParametersWithin limit (place.advance (keyword ++ nameText)) parameters)
    (hbrace : Punctuation .openBrace brace) :
    ∃ op, QueryWithin limit place (keyword ++ (nameText ++ (parameters ++ brace))) op := by
  obtain ⟨⟨vs, hvs⟩, n, hn, hle⟩ := hparameters
  rw [← List.append_assoc, ← List.append_assoc]
  exact ⟨_, .declared hk hne hname hvs hn hle hbrace⟩

namespace Rule

/-! ### Declarations -/

theorem Viable.placed {α : Type} {next : Position → Rule α} {Whole : List Char → Prop}
    (h : (next c.position).Viable c Whole) : (position >>= next).Viable c Whole :=
  fun err herr => h err herr

/-- What is read of a declaration is the start of one within the limit. -/
theorem viable_declaration (hs : s.Committed) (hle : c.depth ≤ c.depthLimit) (hc : c.Valid) :
    (declaration s).Viable c (DeclarationWithin c.room c.position) := by
  have hdollar : Punctuation .dollar ['$'] := .self _
  have hcolon : Punctuation .colon [':'] := .self _
  have hequals : Punctuation .equals ['='] := .self _
  have htype := referenceWithin_name c.room
  have hnone : ClosedWithin c.room [] := ⟨0, closed_nil, Nat.zero_le _⟩
  have hnull := literalWithin_null c.room
  obtain ⟨v, hliteral⟩ := hnull.literal
  refine Viable.placed (viable_token_bind ⟨_, declarationWithin_of_parts _ hdollar named_letter hcolon htype .none hnone⟩
    fun {c1 dollar} _ hdollar h1 _ => ?_)
  refine viable_name_bind ⟨_, declarationWithin_of_parts _ hdollar named_letter hcolon htype .none hnone⟩
    fun {name c2 nameText} hname h2 _ => ?_
  refine viable_token_bind ⟨_, declarationWithin_of_parts _ hdollar hname hcolon htype .none hnone⟩
    fun {c3 colon} _ hcolon h3 _ => ?_
  have h123 := (h1.trans h2).trans h3
  have hviable := viable_typeRef (s := s) (h123.depth_le hle)
  rw [h123.room] at hviable
  have hpart {typeText} (htype : ReferenceWithin c.room typeText) :=
    declarationWithin_of_parts c.position hdollar hname hcolon htype .none hnone
  refine Viable.bind (hviable.extend fun typeText htype => ⟨_, hpart htype⟩) (moves_typeRef s)
    fun {type c4 typeText} hread h4 => ?_
  obtain ⟨typeText', htype, h4'⟩ := referenceWithin_of_ok (h123.depth_le hle) hread
  obtain rfl := h4.text_unique h4'
  rw [h123.room] at htype
  refine Viable.bind (Viable.maybe (viable_token_bind ?_ fun {c5 equals} _ hequals h5 _ => ?_))
    (Moves.maybe ((moves_token _).bind fun _ => moves_literal s)) fun _ _ => viable_pure _
  · have hdefault := declarationWithin_of_parts c.position hdollar hname hcolon htype (.some hequals hliteral)
      ((closedWithin_mark hequals (by decide)).append hnull.closed)
    exact ⟨_, hdefault⟩
  · have h12345 := (h123.trans h4).trans h5
    have hviable := viable_literal hs (h12345.depth_le hle) (h12345.valid hc)
    rw [h12345.room] at hviable
    refine hviable.mono fun text ⟨⟨v, hv⟩, hclosed⟩ => ?_
    exact declarationWithin_of_parts _ hdollar hname hcolon htype (.some hequals hv)
      ((closedWithin_mark hequals (by decide)).append hclosed)

theorem declarationWithin_of_ok (hle : c.depth ≤ c.depthLimit) {v : Variable} (h : declaration s c = .ok (v, d)) :
    ∃ text, DeclarationWithin c.room c.position text ∧ c.Reads text d := by
  obtain ⟨text, hdecl, hr, -⟩ := declaration_eq_ok h
  have hnests : (declaration s).Nests (c.depthLimit + 1) := nests_declaration s
  obtain ⟨n, hn, hdepth⟩ := hnests.closed_text hle (by omega) h hr
  exact ⟨text, ⟨⟨v, hdecl⟩, n, hn, by unfold Cursor.room; omega⟩, hr⟩

/-- Declarations that were read with a comma behind each of them, and one more, are declarations. -/
theorem declarations_of_leading (hle : c.depth ≤ c.depthLimit) {vs : List Variable} (h : Leading (declaration s) c vs d)
    {text last : List Char} (hr : c.Reads text d) (hlast : DeclarationWithin c.room d.position last) :
    ∃ first others, Declarations c.position (text ++ last) (first :: others) ∧
      ClosedWithin c.room (text ++ last) := by
  induction h generalizing text with
  | none =>
    obtain rfl := hr.text_unique (.refl _)
    obtain ⟨⟨v, hv⟩, hclosed⟩ := hlast
    exact ⟨v, [], .one hv, hclosed⟩
  | @more c e f d v vs hread hcomma hmore ih =>
    obtain ⟨first, ⟨⟨v', hv⟩, hclosed⟩, h1⟩ := declarationWithin_of_ok hle hread
    obtain ⟨comma, hcs, h2, -⟩ := (Lexeme.token_eq_ok hcomma).reads
    have hcs : Punctuation .comma comma := hcs
    obtain ⟨rest, h3⟩ := (moves_declaration s).leading hmore
    have h12 := h1.trans h2
    rw [← h12.room] at hlast
    obtain ⟨next, others, hdecls, hrest⟩ := ih (h12.depth_le hle) h3 hlast
    rw [h12.room] at hrest
    rw [h12.position] at hdecls
    rw [hr.text_unique (h12.trans h3), List.append_assoc]
    exact ⟨v', next :: others, .more hv hcs hdecls, (hclosed.append (closedWithin_mark hcs (by decide))).append hrest⟩

/-- What is read of the declarations of a query is the start of such declarations within the limit. -/
theorem viable_declarations (hs : s.Committed) (hle : c.depth ≤ c.depthLimit) (hc : c.Valid) :
    (declarations s).Viable c (ParametersWithin c.room c.position) := by
  have hopen : Punctuation .openParen ['('] := .self _
  have hnone {place} : DeclarationsWithin c.room place [] := ⟨⟨[], .none⟩, 0, closed_nil, Nat.zero_le _⟩
  refine viable_token_bind ⟨_, parametersWithin_of_declarations hopen hnone⟩ fun {c1 left} _ hl h1 _ => ?_
  have hvalid := h1.valid hc
  have hle1 := h1.depth_le hle
  have hrow {vs e text last} (hleading : Leading (declaration s) c1 vs e) (hr : c1.Reads text e)
      (hlast : DeclarationWithin e.room e.position last) :
      DeclarationsWithin c.room (c.position.advance left) (text ++ last) := by
    rw [hr.room] at hlast
    obtain ⟨first, others, hdecls, hclosed⟩ := declarations_of_leading hle1 hleading hr hlast
    rw [h1.room] at hclosed
    exact ⟨⟨_, h1.position ▸ hdecls⟩, hclosed⟩
  refine viable_row (DeclarationsWithin c.room (c.position.advance left)) hs (moves_declaration s) hvalid
    ?_ hnone ?_ ?_
  · intro inner hinner
    exact parametersWithin_of_declarations hl hinner
  · intro vs e text hleading hr
    exact (viable_declaration hs (hr.depth_le hle1) (hr.valid hvalid)).mono fun last hlast => hrow hleading hr hlast
  · intro vs e text v f read hleading hr hread h2
    obtain ⟨last, hlast, h2'⟩ := declarationWithin_of_ok (hr.depth_le hle1) hread
    obtain rfl := h2.text_unique h2'
    exact hrow hleading hr hlast

theorem parametersWithin_of_maybe (hle : c.depth ≤ c.depthLimit) (hflush : Flush c.rest) {o : Option (List Variable)}
    (h : maybe s.retry (declarations s) c = .ok (o, d)) :
    ∃ text, ParametersWithin c.room c.position text ∧ c.Reads text d := by
  obtain ⟨text, n, hparameters, hn, hdepth, hr⟩ := closed_parameters_of_maybe h hflush
  have := hdepth hle
  exact ⟨text, ⟨⟨_, hparameters⟩, n, hn, by unfold Cursor.room; omega⟩, hr⟩

/-! ### Queries -/

/-- What is read of a query of some form is the start of one within the limit. -/
theorem viable_queryForm (hs : s.Committed) (hle : c.depth ≤ c.depthLimit) (hc : c.Valid) (f : QueryForm) :
    (queryForm s f).Viable c fun text => ∃ op, QueryWithin c.room c.position text op := by
  have hopen : Punctuation .openBrace ['\x7b'] := .self _
  have hclose : Punctuation .closeBrace ['\x7d'] := .self _
  have hstart := queryWithin_shorthand c.room c.position hopen named_letter hclose
  cases f with
  | shorthand =>
    refine Viable.placed (viable_token_bind ⟨_, hstart⟩ fun {c1 left} _ hl h1 _ => ?_)
    exact viable_name_bind ⟨_, queryWithin_shorthand _ _ hl named_letter hclose⟩ fun {name c2 nameText} hname h2 _ =>
      viable_token_bind ⟨_, queryWithin_shorthand _ _ hl hname hclose⟩ fun _ _ _ _ => viable_pure _
  | declared =>
    refine Viable.placed (viable_token_bind ⟨_, hstart⟩ fun {c1 keyword} hquery hk h1 _ => ?_)
    have hnone {place} : ParametersWithin c.room place [] := ⟨⟨[], .none⟩, 0, closed_nil, Nat.zero_le _⟩
    refine Viable.bind (viable_name ?_) moves_name fun {name c2 nameText} hname h2 => ?_
    · -- a keyword that no blank follows yet takes one in front of the name
      have hk' : Punctuation .query (keyword ++ [' ']) := hk.append (by decide)
      have hne : keyword ++ [' '] ≠ Token.query.text.toList := by
        obtain ⟨w, -, rfl⟩ := hk
        intro h
        have hlength := congrArg List.length h
        simp only [List.length_append, List.length_singleton] at hlength
        omega
      have hwhole := queryWithin_declared c.position hk' hne named_letter hnone hopen
      rw [List.append_assoc] at hwhole
      exact ⟨_, hwhole⟩
    · obtain ⟨nameText', hnamed, h2', hflush⟩ := reads_name hname
      obtain rfl := h2.text_unique h2'
      have h12 := h1.trans h2
      have hne : keyword ≠ Token.query.text.toList := by
        obtain ⟨hn, w, -, rfl⟩ := hnamed
        exact keyword_ne_of_name hquery h1 hn (h2.rest.trans (List.append_assoc ..))
      have hviable := viable_declarations hs (h12.depth_le hle) (h12.valid hc)
      rw [h12.room, h12.position] at hviable
      have hwhole {parameters} (hp : ParametersWithin c.room (c.position.advance (keyword ++ nameText)) parameters) :=
        queryWithin_declared _ hk hne hnamed hp hopen
      refine Viable.bind (hviable.maybe.extend fun parameters hp => ⟨_, hwhole hp⟩) (moves_declarations s).maybe
        fun {vs c3 parameters} hvs h3 => viable_token_bind ⟨_, hwhole ?_⟩ fun _ _ _ _ => viable_pure _
      obtain ⟨parameters', hp, h3'⟩ := parametersWithin_of_maybe (h12.depth_le hle) hflush hvs
      rw [h12.room, h12.position] at hp
      rwa [h3.text_unique h3']

theorem viable_definition (hs : s.Committed) (hle : c.depth ≤ c.depthLimit) (hc : c.Valid) :
    (definition s).Viable c fun text => ∃ op, QueryWithin c.room c.position text op := by
  have hopen : Punctuation .openBrace ['\x7b'] := .self _
  have hclose : Punctuation .closeBrace ['\x7d'] := .self _
  have hstart := queryWithin_shorthand c.room c.position hopen named_letter hclose
  refine viable_choice (fun rule hmem => ?_) ⟨_, hstart⟩
  obtain ⟨f, -, rfl⟩ := List.mem_map.mp hmem
  cases f with
  | query =>
    refine Viable.bind (viable_choice (fun rule hmem => ?_) ⟨_, hstart⟩) (moves_query s) fun _ _ => viable_pure _
    obtain ⟨g, -, rfl⟩ := List.mem_map.mp hmem
    exact viable_queryForm hs hle hc g
  | mutation => exact Viable.placed (viable_token_bind ⟨_, hstart⟩ fun _ _ _ _ => viable_pure _)

/-! ### Definitions in front of others -/

/-- A definition is read alike at another cursor with the same place and room if the text behind it starts alike. -/
theorem definition_again (hs : s.Thorough) (hle : c.depth ≤ c.depthLimit) {x : Definition} (h : definition s c = .ok (x, d))
    {text : List Char} (hr : c.Reads text d) {c' d' : Cursor} (hplace : c'.position = c.position) (hdepth : c'.depth = c.depth)
    (hlimit : c'.depthLimit = c.depthLimit) (hv : c'.Valid) (hr' : c'.Reads text d')
    (hnext : d'.rest.head? = d.rest.head?) : definition s c' = .ok (x, d') := by
  obtain ⟨rule, hm, h⟩ := choice_eq_ok h
  obtain ⟨f, -, rfl⟩ := List.mem_map.mp hm
  cases f with
  | query =>
    obtain ⟨op, c1, hop, h⟩ := bind_eq_ok.mp h
    obtain ⟨rfl, rfl⟩ := Prod.mk.inj (Except.ok.inj h)
    obtain ⟨text', n, hq, hwithin, hreads, hflush⟩ := query_eq_ok hop
    obtain rfl := hr.text_unique hreads
    rw [← hplace] at hq
    have hflush' : Flush d'.rest := fun y hy => hflush y (hnext ▸ hy)
    have hread := query_of_text hs hq hv (by have := hwithin hle; omega) hr' hflush'
    have hstarts : DefinitionForm.query.Starts c'.rest := hr'.rest ▸ query_starts hq.query d'.rest
    exact definition_of_form hs hstarts (bind_eq_ok.mpr ⟨op, _, hread, rfl⟩) final_ok
  | mutation =>
    obtain ⟨place, c0, hposition, h⟩ := bind_eq_ok.mp h
    obtain ⟨rfl, rfl⟩ := Prod.mk.inj (Except.ok.inj hposition)
    obtain ⟨⟨⟩, c1, hword, h⟩ := bind_eq_ok.mp h
    obtain ⟨rfl, rfl⟩ := Prod.mk.inj (Except.ok.inj h)
    obtain ⟨text', ⟨w, hw, rfl⟩, hreads, hflush⟩ := reads_token hword
    obtain rfl := hr.text_unique hreads
    have hflush' : Flush d'.rest := fun y hy => hflush y (hnext ▸ hy)
    have hends := (Lexeme.token_eq_ok_iff.mp (token_eq_ok.mp hword)).2 rfl
    rw [hr.rest, List.append_assoc, List.drop_left] at hends
    have hends' : NameEnds (w ++ d'.rest) := by
      intro y hy
      rw [List.head?_append, hnext, ← List.head?_append] at hy
      exact hends y hy
    have hread := Lexeme.keyword_of_reads hw hr' hflush' hends'
    have hstarts : DefinitionForm.mutation.Starts c'.rest := ⟨_, by rw [hr'.rest, List.append_assoc], hends'⟩
    rw [← hplace]
    exact definition_of_form hs hstarts
      (bind_eq_ok.mpr ⟨c'.position, c', rfl, bind_eq_ok.mpr ⟨(), _, token_eq_ok.mpr hread, rfl⟩⟩) final_ok

/-- Definitions are read alike in front of a text that starts alike. -/
theorem run_again (hs : s.Thorough) (hle : c.depth ≤ c.depthLimit) {ds : List Definition} (h : Run (definition s) c ds d)
    {text : List Char} (hr : c.Reads text d) {c' d' : Cursor} (hplace : c'.position = c.position) (hdepth : c'.depth = c.depth)
    (hlimit : c'.depthLimit = c.depthLimit) (hv : c'.Valid) (hr' : c'.Reads text d')
    (hnext : d'.rest.head? = d.rest.head?) : Run (definition s) c' ds d' := by
  induction h generalizing text c' with
  | nil =>
    obtain rfl := hr.text_unique (.refl _)
    obtain rfl := hr'.unique (.refl _)
    exact .nil _
  | @cons c e d x ds hx _ hmore ih =>
    obtain ⟨first, hne, h1, -⟩ := definition_eq_ok hx
    obtain ⟨rest, h2⟩ := (moves_definition s).run hmore
    obtain rfl := hr.text_unique (h1.trans h2)
    obtain ⟨e', h1', h2'⟩ := hr'.split
    have hnext' : e'.rest.head? = e.rest.head? := by
      rw [h2'.rest, h2.rest, List.head?_append, List.head?_append, hnext]
    have hx' := definition_again hs hle hx h1 hplace hdepth hlimit hv h1' hnext'
    have hplace' : e'.position = e.position := by rw [h1'.position, h1.position, hplace]
    have hdepth' : e'.depth = e.depth := by rw [h1'.depth, h1.depth, hdepth]
    have hlimit' : e'.depthLimit = e.depthLimit := by rw [h1'.depthLimit, h1.depthLimit, hlimit]
    have hle' : e.depth ≤ e.depthLimit := by rwa [h1.depth, h1.depthLimit]
    exact .cons hx' (h1'.left_lt hv hne) (ih hle' h2 hplace' hdepth' hlimit' (h1'.valid hv) h2' hnext)

end Rule

end RequestDoc

import RequestDoc.Proofs.Document.Exact
import RequestDoc.Proofs.Literal.Exact
import RequestDoc.Proofs.Parse.Depth
import RequestDoc.Proofs.Rule.Exceeds

/-!
Queries put together from pieces. A query whose declarations are made of texts for types and default values is parsed
as these texts are: each of them is read up to its end, whatever follows it, and no bracket is open in front of it.
Where the first text that is not parsed nests too deeply, the query does so at the same character.
-/

namespace RequestDoc

open Grammar Nesting

variable {limits : Limits} {name : String} {c d : Cursor} {limit : Nat} {place : Position}

/-! ### The text of a query -/

/-- What a declaration is put together from: the name of the variable, the text of its type, and the text of its
default value, if it has one. -/
structure DeclarationText where
  name : String
  type : String
  value : Option String

namespace DeclarationText

/-- The characters in front of the type. -/
def head (x : DeclarationText) : List Char :=
  '$' :: (x.name.toList ++ [':'])

/-- The default value with its equals sign. -/
def tail (x : DeclarationText) : List Char :=
  x.value.elim [] fun value => '=' :: value.toList

/-- The whole declaration. -/
def chars (x : DeclarationText) : List Char :=
  x.head ++ (x.type.toList ++ x.tail)

/-- The declarations with a comma behind each of them. -/
def leading (xs : List DeclarationText) : List Char :=
  xs.flatMap fun x => x.chars ++ [',']

/-- Parses the pieces of a declaration, and gives them with the name of the variable. -/
def parse (limits : Limits) (x : DeclarationText) : Except ParseError (String × TypeRef × Option Value) := do
  let type ← TypeRef.parse limits x.type
  match x.value with
  | none => return (x.name, type, none)
  | some text =>
    let value ← Value.parse limits text
    return (x.name, type, some value)

/-- The first piece of the declaration that is not parsed nests too deeply, at a place of the piece. It stands behind
a front of the declaration. -/
inductive TooDeep (limits : Limits) (x : DeclarationText) : List Char → String → Position → Prop where
  | type {limit : Nat} {place : Position} :
      TypeRef.parse limits x.type = .error (.tooDeep limit place) → TooDeep limits x x.head x.type place
  | value {limit : Nat} {place : Position} {type : TypeRef} {text : String} :
      TypeRef.parse limits x.type = .ok type → x.value = some text →
      Value.parse limits text = .error (.tooDeep limit place) →
      TooDeep limits x (x.head ++ x.type.toList ++ ['=']) text place

end DeclarationText

/-- The characters of a query in front of its declarations. -/
def queryHead (name : String) : List Char :=
  Token.query.text.toList ++ [' '] ++ name.toList ++ ['(']

/-- The text of a query with declarations. -/
def queryText (name : String) (xs : List DeclarationText) : String :=
  String.ofList (queryHead name ++ [','].intercalate (xs.map DeclarationText.chars) ++ [')', '{'])

/-- The name, the type and the default value of a variable. -/
def Variable.parts (x : Variable) : String × TypeRef × Option Value :=
  (x.name.text, x.type, x.defaultValue)

/-! ### Pieces that are parsed -/

namespace DeclarationText

variable {x : DeclarationText} {parts : String × TypeRef × Option Value}

theorem parse_eq_ok (h : x.parse limits = .ok parts) : parts.1 = x.name ∧ TypeRef.parse limits x.type = .ok parts.2.1 ∧
    x.value.map (Value.parse limits) = parts.2.2.map .ok := by
  unfold parse at h
  cases htype : TypeRef.parse limits x.type with
  | error err =>
    rw [htype] at h
    cases h
  | ok type =>
    rw [htype] at h
    cases hvalue : x.value with
    | none =>
      rw [hvalue] at h
      obtain rfl := Except.ok.inj h
      exact ⟨rfl, rfl, rfl⟩
    | some text =>
      rw [hvalue] at h
      cases hparse : Value.parse limits text with
      | error err =>
        have h : Except.bind (Value.parse limits text) _ = _ := h
        rw [hparse] at h
        cases h
      | ok value =>
        have h : Except.bind (Value.parse limits text) _ = _ := h
        rw [hparse] at h
        obtain rfl := Except.ok.inj h
        exact ⟨rfl, rfl, congrArg some hparse⟩

theorem default_of_parse {value : Option Value} (h : x.value.map (Value.parse limits) = value.map .ok) :
    Default x.tail value ∧ ∃ n, Closed x.tail n ∧ n ≤ limits.depth := by
  unfold tail
  cases hvalue : x.value with
  | none =>
    rw [hvalue] at h
    cases value with
    | none => exact ⟨.none, 0, closed_nil, Nat.zero_le _⟩
    | some v => cases h
  | some text =>
    rw [hvalue] at h
    cases value with
    | none => cases h
    | some v =>
      have hparse : Value.parse limits text = .ok v := Option.some.inj h
      obtain ⟨w, s, hw, htext, hliteral, n, hn, hle⟩ :=
        (Value.parse_eq_ok_iff_within (Rule.size_of_parse_eq_ok hparse) v).mp hparse
      have hequals : Punctuation .equals (['='] ++ w) := ⟨w, hw, rfl⟩
      have hchars : '=' :: text.toList = (['='] ++ w) ++ s := by rw [htext]; rfl
      refine ⟨?_, max 0 n, ?_, by omega⟩
      · rw [Option.elim, hchars]
        exact .some hequals hliteral
      · rw [Option.elim, hchars]
        exact (closed_mark hequals (by decide)).append hn

/-- A declaration whose pieces are parsed declares what they stand for, within the limit. -/
theorem declaration_of_parse (hname : IsName x.name.toList) (h : x.parse limits = .ok parts) (place : Position) :
    Declaration place x.chars ⟨place, ⟨parts.1⟩, parts.2.1, parts.2.2⟩ ∧ ∃ n, Closed x.chars n ∧ n ≤ limits.depth := by
  obtain ⟨hsame, htype, hvalue⟩ := parse_eq_ok h
  obtain ⟨w, s, hw, htext, hreference, hdepth⟩ :=
    (TypeRef.parse_eq_ok_iff_reference (Rule.size_of_parse_eq_ok htype) _).mp htype
  obtain ⟨hdefault, n, hn, hle⟩ := default_of_parse hvalue
  have hdollar : Punctuation .dollar ['$'] := .self _
  have hnamed : Named x.name.toList x.name := ⟨hname, .self _⟩
  have hcolon : Punctuation .colon ([':'] ++ w) := ⟨w, hw, rfl⟩
  have hchars : x.chars = ['$'] ++ x.name.toList ++ ([':'] ++ w) ++ s ++ x.tail := by
    simp [chars, head, htext]
  rw [hchars, hsame]
  have hhead := ((closed_mark hdollar (by decide)).append (closed_named hnamed)).append (closed_mark hcolon (by decide))
  exact ⟨.mk hdollar hnamed hcolon hreference hdefault,
    _, (hhead.append (closed_reference hreference)).append hn, by omega⟩

theorem declarations_of_parse {xs : List DeclarationText} {parts : List (String × TypeRef × Option Value)}
    (hnames : ∀ x ∈ xs, IsName x.name.toList) (h : xs.map (parse limits) = parts.map .ok) (place : Position) :
    ∃ vs n, Declarations place ([','].intercalate (xs.map chars)) vs ∧ vs.map Variable.parts = parts ∧
      Closed ([','].intercalate (xs.map chars)) n ∧ n ≤ limits.depth := by
  induction xs generalizing parts place with
  | nil =>
    obtain rfl := List.map_eq_nil_iff.mp h.symm
    exact ⟨[], 0, .none, rfl, closed_nil, Nat.zero_le _⟩
  | cons x xs ih =>
    obtain ⟨part, parts, rfl⟩ : ∃ part rest, parts = part :: rest := by
      cases parts with
      | nil => cases h
      | cons part rest => exact ⟨part, rest, rfl⟩
    obtain ⟨hx, hxs⟩ := List.cons.inj h
    obtain ⟨hdecl, n, hn, hle⟩ := declaration_of_parse (hnames x List.mem_cons_self) hx place
    cases xs with
    | nil =>
      obtain rfl := List.map_eq_nil_iff.mp hxs.symm
      rw [List.map_singleton, List.intercalate_singleton]
      exact ⟨_, n, .one hdecl, rfl, hn, hle⟩
    | cons y ys =>
      have hcomma : Punctuation .comma [','] := .self _
      obtain ⟨vs, m, hdecls, hparts, hm, hle'⟩ :=
        ih (fun z hz => hnames z (List.mem_cons_of_mem x hz)) hxs (place.advance (x.chars ++ [',']))
      obtain ⟨v, vs, rfl⟩ : ∃ v rest, vs = v :: rest := by
        cases vs with
        | nil =>
          rw [← hparts] at hxs
          cases hxs
        | cons v rest => exact ⟨v, rest, rfl⟩
      rw [List.map_cons, List.map_cons, List.intercalate_cons_cons]
      rw [List.map_cons] at hdecls hm
      have hclosed := (hn.append (closed_mark hcomma (by decide))).append hm
      refine ⟨_, _, .more hdecl hcomma hdecls, by rw [List.map_cons, hparts]; rfl, hclosed, by omega⟩

end DeclarationText

/-! ### The query as a whole -/

theorem query_of_parse {xs : List DeclarationText} {parts : List (String × TypeRef × Option Value)} (hname : IsName name.toList)
    (hnames : ∀ x ∈ xs, IsName x.name.toList) (h : xs.map (DeclarationText.parse limits) = parts.map .ok) :
    ∃ vs, QueryWithin limits.depth .first (queryText name xs).toList (.ofHead .first .query (some ⟨name⟩) vs) ∧
      vs.map Variable.parts = parts := by
  have hkeyword : Punctuation .query (Token.query.text.toList ++ [' ']) := ⟨[' '], by decide, rfl⟩
  have hleft : Punctuation .openParen ['('] := .self _
  have hright : Punctuation .closeParen [')'] := .self _
  obtain ⟨vs, n, hdecls, hparts, hn, hle⟩ := DeclarationText.declarations_of_parse hnames h
    ((Position.first.advance (Token.query.text.toList ++ [' '] ++ name.toList)).advance ['('])
  have hclosed := ((closed_mark hleft (by decide)).append hn).append (closed_mark hright (by decide))
  refine ⟨vs, ?_, hparts⟩
  have htext : (queryText name xs).toList = (Token.query.text.toList ++ [' ']) ++ name.toList ++
      (['('] ++ [','].intercalate (xs.map DeclarationText.chars) ++ [')']) ++ ['{'] := by
    simp [queryText, queryHead]
  rw [htext]
  exact .declared hkeyword (by decide) ⟨hname, .self _⟩ (.some hleft hdecls hright) hclosed (by omega) (.self _)

theorem rest_entry_queryText (limits : Limits) (name : String) (xs : List DeclarationText) :
    Cursor.entry limits (queryText name xs) = .start (queryText name xs) limits.depth ∧
      (Cursor.entry limits (queryText name xs)).rest = (queryText name xs).toList := by
  have hflush : Flush (queryText name xs).toList := by
    rw [queryText, String.toList_ofList]
    exact flush_cons (x := 'q') (by decide)
  obtain ⟨hr, hrest⟩ := Cursor.reads_entry_of_eq limits Blanks.nil (List.nil_append _).symm hflush
  exact ⟨hr.unique (.refl _), hrest⟩

theorem Document.parse_queryText {xs : List DeclarationText} {parts : List (String × TypeRef × Option Value)}
    (hsize : (queryText name xs).utf8ByteSize ≤ limits.textSize) (hname : IsName name.toList)
    (hnames : ∀ x ∈ xs, IsName x.name.toList) (h : xs.map (DeclarationText.parse limits) = parts.map .ok) :
    ∃ vs, Document.parse limits (queryText name xs) = .ok ⟨[.ofHead .first .query (some ⟨name⟩) vs], []⟩ ∧
      vs.map Variable.parts = parts := by
  obtain ⟨vs, hquery, hparts⟩ := query_of_parse hname hnames h
  obtain ⟨hentry, hrest⟩ := rest_entry_queryText limits name xs
  refine ⟨vs, parse_of_run hsize (.nil _) hrest ?_, hparts⟩
  rw [hentry]
  exact hquery

/-! ### Pieces in the text of a query -/

/-- A piece of a text, behind its front and in front of its tail. -/
def Placement.inside (text : String) (front tail : List Char) : Placement :=
  ⟨text, byteSize front, Position.first.advance front, tail, 0⟩

section Piece

variable {text piece : String} {front tail : List Char} (h : (Cursor.start text limits.depth).Reads front c)
  (hrest : c.rest = piece.toList ++ tail)

include h hrest

theorem Placement.cursor_inside_start : (inside text front tail).cursor (.start piece limits.depth) = c := by
  have hc := h.eq_past
  rw [hc] at hrest ⊢
  simp [cursor, Cursor.start, inside, Cursor.past] at hrest ⊢
  exact hrest.symm

theorem Placement.fits_inside_entry : (inside text front tail).Fits (Cursor.entry limits piece) := by
  obtain ⟨w, -, hr⟩ := Cursor.reads_entry limits piece
  refine Fits.of_reads ⟨Cursor.valid_start .., ?_⟩ hr
  rw [cursor_inside_start h hrest]
  exact h.valid (Cursor.valid_start ..)

end Piece

/-- A mark in front of a piece is read up to the first character of the piece that is no blank. -/
theorem token_before_piece {t : Token} (hk : t.isKeyword = false) {text piece : String} {front tail : List Char}
    (h : (Cursor.start text limits.depth).Reads front c) (hrest : c.rest = t.text.toList ++ (piece.toList ++ tail))
    (htail : Flush tail) : ∃ d, (Cursor.start text limits.depth).Reads (front ++ t.text.toList) d ∧
      d.rest = piece.toList ++ tail ∧ Rule.token t c =
        .ok ((), (Placement.inside text (front ++ t.text.toList) tail).cursor (Cursor.entry limits piece)) := by
  have hr := Cursor.Reads.of_rest hrest
  have hnext := Cursor.rest_past hrest
  have hstart := Placement.cursor_inside_start (h.trans hr) hnext
  refine ⟨_, h.trans hr, hnext, Rule.token_eq_ok.mpr (Lexeme.token_eq_ok_iff.mpr ⟨⟨⟨_, hrest⟩, ?_⟩, fun hkw => ?_⟩)⟩
  · rw [Cursor.entry, ← Placement.cursor_skipBlanks_of_flush htail (Cursor.valid_start ..), hstart]
  · cases hk.symm.trans hkw

/-! ### Pieces that nest too deeply -/

/-- A piece that nests too deeply on its own does so in a greater text, at the same character. -/
theorem Rule.tooDeep_inside {α : Type} {rule : Rule α} {text piece : String} {front tail : List Char} (hm : rule.Moves)
    (hexceeds : rule.Exceeds (.inside text front tail) (limits.depth + 1))
    (h : rule.parse limits piece = .error (.tooDeep limit place)) (hr : (Cursor.start text limits.depth).Reads front c)
    (hrest : c.rest = piece.toList ++ tail) : rule ((Placement.inside text front tail).cursor (Cursor.entry limits piece)) =
      .error (.tooDeep limits.depth (place.shift (Position.first.advance front))) := by
  have herr := tooDeep_of_parse h
  obtain rfl : limit = limits.depth := (hm.meets herr).limit_eq
  refine hexceeds.tooDeep (Placement.fits_inside_entry hr hrest) (Nat.zero_le _) ?_ herr
  show limits.depth < 0 + (limits.depth + 1)
  omega

namespace DeclarationText

variable {x : DeclarationText} {text piece : String} {before front rest : List Char}

/-- A piece that nests too deeply stands in its declaration behind the front. -/
theorem TooDeep.stands (h : x.TooDeep limits front piece place) : ∃ rest, x.chars = front ++ piece.toList ++ rest := by
  cases h with
  | type htype => exact ⟨x.tail, by rw [chars, List.append_assoc]⟩
  | value htype hvalue hparse => exact ⟨[], by simp [chars, tail, hvalue]⟩

theorem flush_tail (x : DeclarationText) (h : Flush rest) : Flush (x.tail ++ rest) := by
  unfold tail
  cases x.value with
  | none => exact h
  | some value => exact flush_cons (x := '=') (by decide)

theorem flush_leading (xs : List DeclarationText) (h : Flush rest) : Flush (leading xs ++ rest) := by
  cases xs with
  | nil => exact h
  | cons x xs => exact flush_cons (x := '$') (by decide)

/-- The type of a declaration, which is parsed, is read in front of the rest of the declaration. -/
theorem typeRef_of_parse {type : TypeRef} (h : TypeRef.parse limits piece = .ok type) {tail : List Char}
    (hr : (Cursor.start text limits.depth).Reads before c) (hrest : c.rest = piece.toList ++ tail) (htail : Apart tail)
    (hbang : tail.head? ≠ some '!') :
    ∃ d, (Cursor.start text limits.depth).Reads (before ++ piece.toList) d ∧ d.rest = tail ∧
      Rule.typeRef .standard ((Placement.inside text before tail).cursor (Cursor.entry limits piece)) = .ok (type, d) := by
  obtain ⟨w, s, hw, hpiece, hreference, hdepth⟩ :=
    (TypeRef.parse_eq_ok_iff_reference (Rule.size_of_parse_eq_ok h) type).mp h
  have hflush : Flush s := List.append_nil s ▸ TypeRef.flush_reference hreference []
  obtain ⟨hblanks, hentry⟩ := Cursor.reads_entry_of_eq limits hw hpiece hflush
  have hmoved := Placement.reads_cursor (p := .inside text before tail) (Cursor.valid_start ..) hblanks
  rw [Placement.cursor_inside_start hr hrest] at hmoved
  have hnext : ((Placement.inside text before tail).cursor (Cursor.entry limits piece)).rest = s ++ tail := by
    show (Cursor.entry limits piece).rest ++ tail = _
    rw [hentry]
  have hread := Cursor.Reads.of_rest hnext
  have hend := Cursor.rest_past hnext
  have hlevels : 0 + type.depth ≤ limits.depth + 0 := by omega
  refine ⟨_, ?_, hend, Rule.typeRef_of_reference Strategy.thorough_standard hreference hlevels hread ?_ ?_⟩
  · rw [hpiece]
    exact hr.trans (hmoved.trans hread)
  · rw [hend]
    exact htail
  · rw [hend]
    exact hbang

/-- A declaration with a piece that nests too deeply does so at the same character. -/
theorem declaration_tooDeep (hx : x.TooDeep limits front piece place) (hname : IsName x.name.toList)
    (hr : (Cursor.start text limits.depth).Reads before c) (hrest : c.rest = x.chars ++ rest)
    (hends : Rule.DeclarationEnds rest) : Rule.declaration .standard c =
      .error (.tooDeep limits.depth (place.shift (Position.first.advance (before ++ front)))) := by
  have hs := Strategy.thorough_standard
  have hc := Strategy.committed_standard
  have hdollar : Punctuation .dollar ['$'] := .self _
  have hnamed : Named x.name.toList x.name := ⟨hname, .self _⟩
  have hchars : c.rest = ['$'] ++ (x.name.toList ++ ([':'] ++ (x.type.toList ++ (x.tail ++ rest)))) := by
    rw [hrest]
    simp [chars, head]
  have h1 := Cursor.Reads.of_rest hchars
  have hrest1 := Cursor.rest_past hchars
  have h2 := Cursor.Reads.of_rest hrest1
  have hrest2 := Cursor.rest_past hrest1
  have hflush : Flush (x.tail ++ rest) := x.flush_tail hends.apart.flush
  have hflush1 : Flush (c.past ['$']).rest := hrest1 ▸ Lexeme.flush_named hnamed _
  have hapart2 : Apart ((c.past ['$']).past x.name.toList).rest := hrest2 ▸ apart_of_head rfl (by decide)
  have hread1 := Rule.token_of_mark rfl hdollar h1 hflush1
  have hread2 := Lexeme.name_of_reads hnamed h2 hapart2
  have hcolon : ((c.past ['$']).past x.name.toList).rest = Token.colon.text.toList ++ (x.type.toList ++ (x.tail ++ rest)) :=
    hrest2
  obtain ⟨d, hd, hdrest, hread3⟩ := token_before_piece rfl (hr.trans (h1.trans h2)) hcolon hflush
  have hfront : before ++ (['$'] ++ x.name.toList) ++ Token.colon.text.toList = before ++ x.head := by
    simp [head, Token.text]
  rw [hfront] at hd hread3
  -- the error comes of the type or of the default value behind it
  have hdeclaration : Rule.declaration .standard c = _ :=
    (Rule.bind_of_ok rfl).trans ((Rule.bind_of_ok hread1).trans
      ((Rule.bind_of_ok (Rule.lexeme_eq_ok.mpr hread2)).trans (Rule.bind_of_ok hread3)))
  rw [hdeclaration]
  cases hx with
  | type htype =>
    exact Rule.bind_of_error
      (Rule.tooDeep_inside (Rule.moves_typeRef .standard) (Rule.exceeds_typeRef hs rfl hflush) htype hd hdrest)
  | @value limit _ type _ htype hvalue hparse =>
    have htail : x.tail ++ rest = Token.equals.text.toList ++ (piece.toList ++ rest) := by
      rw [tail, hvalue]
      rfl
    have hapart : Apart (x.tail ++ rest) := htail ▸ apart_of_head rfl (by decide)
    have hbang : (x.tail ++ rest).head? ≠ some '!' := by
      rw [htail]
      exact fun h => nomatch h
    obtain ⟨e, he, herest, hread4⟩ := typeRef_of_parse htype hd hdrest hapart hbang
    obtain ⟨f, hf, hfrest, hread5⟩ := token_before_piece rfl he (herest.trans htail) hends.apart.flush
    have hliteral := Rule.tooDeep_inside (Rule.moves_literal .standard)
      (Rule.exceeds_literal hs hc rfl hends.apart.flush) hparse hf hfrest
    have hdefault : Rule.defaultValue .standard e = _ := (Rule.bind_of_ok hread5).trans hliteral
    have hmaybe := Rule.maybe_eq_error.mpr ⟨hdefault, hs.stops⟩
    rw [Rule.bind_of_ok hread4, Rule.bind_of_error hmaybe]
    simp [Token.text]

/-- Declarations whose pieces are parsed are read with a comma behind each of them. -/
theorem leading_of_parse {xs : List DeclarationText} (hnames : ∀ x ∈ xs, IsName x.name.toList)
    (h : ∀ x ∈ xs, ∃ parts, x.parse limits = .ok parts) (hrest : c.rest = leading xs ++ rest) (hflush : Flush rest)
    (hv : c.Valid) (hdepth : c.depth = 0) (hlimit : c.depthLimit = limits.depth) :
    ∃ vs d, Rule.Leading (Rule.declaration .standard) c vs d ∧ c.Reads (leading xs) d ∧ d.rest = rest := by
  induction xs generalizing c with
  | nil => exact ⟨[], c, .none c, .refl c, hrest⟩
  | cons x xs ih =>
    have hcomma : Punctuation .comma [','] := .self _
    have hsplit : c.rest = x.chars ++ ([','] ++ (leading xs ++ rest)) := by
      rw [hrest]
      simp [leading]
    have h1 := Cursor.Reads.of_rest hsplit
    have hrest1 := Cursor.rest_past hsplit
    have h2 := Cursor.Reads.of_rest hrest1
    have hrest2 := Cursor.rest_past hrest1
    obtain ⟨parts, hx⟩ := h x List.mem_cons_self
    obtain ⟨hdecl, n, hn, hle⟩ := declaration_of_parse (hnames x List.mem_cons_self) hx c.position
    have hends : Rule.DeclarationEnds (c.past x.chars).rest := Or.inl (hrest1 ▸ rfl)
    have hread := Rule.declaration_of_text Strategy.thorough_standard hdecl hn hv (by omega) h1 hends
    have hflush2 : Flush ((c.past x.chars).past [',']).rest := hrest2 ▸ flush_leading xs hflush
    have hnext := Lexeme.mark_of_reads rfl hcomma h2 hflush2
    obtain ⟨vs, d, hleading, hreads, hend⟩ := ih (fun y hy => hnames y (List.mem_cons_of_mem x hy))
      (fun y hy => h y (List.mem_cons_of_mem x hy)) hrest2 (h2.valid (h1.valid hv)) hdepth hlimit
    refine ⟨_ :: vs, d, .more hread hnext hleading, ?_, hend⟩
    have hall := (h1.trans h2).trans hreads
    rwa [show x.chars ++ [','] ++ leading xs = leading (x :: xs) by simp [leading]] at hall

/-- Declarations fail where one of them nests too deeply, if those in front of it are parsed. -/
theorem declarations_tooDeep {earlier : List DeclarationText} (hnames : ∀ y ∈ earlier, IsName y.name.toList)
    (hearlier : ∀ y ∈ earlier, ∃ parts, y.parse limits = .ok parts) (hx : x.TooDeep limits front piece place)
    (hname : IsName x.name.toList) (hr : (Cursor.start text limits.depth).Reads before c)
    (hrest : c.rest = ['('] ++ (leading earlier ++ (x.chars ++ rest))) (hends : Rule.DeclarationEnds rest) :
    Rule.declarations .standard c = .error (.tooDeep limits.depth
      (place.shift (Position.first.advance (before ++ ['('] ++ leading earlier ++ front)))) := by
  have hleft : Punctuation .openParen ['('] := .self _
  have h1 := Cursor.Reads.of_rest hrest
  have hrest1 := Cursor.rest_past hrest
  have hflush : Flush (x.chars ++ rest) := flush_cons (x := '$') (by decide)
  have hflush1 : Flush (c.past ['(']).rest := hrest1 ▸ flush_leading earlier hflush
  have hread1 := Rule.token_of_mark rfl hleft h1 hflush1
  have hr1 := hr.trans h1
  have hv := hr1.valid (Cursor.valid_start ..)
  obtain ⟨vs, d, hleading, hreads, hdrest⟩ := leading_of_parse hnames hearlier hrest1 hflush hv hr1.depth hr1.depthLimit
  have hdecl := declaration_tooDeep hx hname (hr1.trans hreads) hdrest hends
  have hsep := (Rule.sepBy_eq_error_iff Strategy.committed_standard (Rule.moves_declaration .standard) hv).mpr
    ⟨vs, d, hleading, hdecl, fun _ => rfl⟩
  exact (Rule.bind_of_ok hread1).trans (Rule.bind_of_error hsep)

/-- Declarations with commas between them, at one of them. -/
theorem intercalate_eq_leading (earlier : List DeclarationText) (x : DeclarationText) (later : List DeclarationText) :
    ∃ rest, [','].intercalate ((earlier ++ x :: later).map chars) = leading earlier ++ (x.chars ++ rest) ∧
      (rest = [] ∨ rest.head? = some ',') := by
  induction earlier with
  | nil =>
    cases later with
    | nil => exact ⟨[], by simp [leading], Or.inl rfl⟩
    | cons y ys =>
      refine ⟨',' :: [','].intercalate ((y :: ys).map chars), ?_, Or.inr rfl⟩
      simp [leading, List.intercalate_cons_cons]
  | cons y earlier ih =>
    obtain ⟨rest, hrest, hends⟩ := ih
    refine ⟨rest, ?_, hends⟩
    have hne : (earlier ++ x :: later).map chars ≠ [] := by simp
    rw [List.cons_append, List.map_cons, List.intercalate_cons_of_ne_nil hne, hrest]
    simp [leading]

end DeclarationText

/-- A query whose declarations nest too deeply does so as a definition. -/
theorem Rule.definition_of_declarations {more : List Char} (hname : IsName name.toList)
    (hrest : c.rest = (Token.query.text.toList ++ [' ']) ++ (name.toList ++ (['('] ++ more)))
    (hdecls : Rule.declarations .standard ((c.past (Token.query.text.toList ++ [' '])).past name.toList) =
      .error (.tooDeep limit place)) : Rule.definition .standard c = .error (.tooDeep limit place) := by
  have hs := Strategy.thorough_standard
  have hnamed : Named name.toList name := ⟨hname, .self _⟩
  have h1 := Cursor.Reads.of_rest hrest
  have hrest1 := Cursor.rest_past hrest
  have h2 := Cursor.Reads.of_rest hrest1
  have hrest2 := Cursor.rest_past hrest1
  have hflush1 := hrest1 ▸ Lexeme.flush_named hnamed _
  have hblank : NameEnds ([' '] ++ (c.past (Token.query.text.toList ++ [' '])).rest) :=
    nameEnds_blank (by decide) (by decide) _
  have hread1 : Rule.token .query c = .ok ((), _) :=
    Rule.token_eq_ok.mpr (Lexeme.keyword_of_reads (by decide) h1 hflush1 hblank)
  have hapart2 : Apart ((c.past (Token.query.text.toList ++ [' '])).past name.toList).rest :=
    hrest2 ▸ apart_of_head rfl (by decide)
  have hread2 := Rule.lexeme_eq_ok.mpr (Lexeme.name_of_reads hnamed h2 hapart2)
  have hform : Rule.queryForm .standard .declared c = .error (.tooDeep limit place) :=
    (Rule.bind_of_ok rfl).trans ((Rule.bind_of_ok hread1).trans ((Rule.bind_of_ok hread2).trans
      (Rule.bind_of_error (Rule.maybe_eq_error.mpr ⟨hdecls, hs.stops⟩))))
  have hstarts : QueryForm.declared.Starts c.rest := ⟨_, by rw [h1.rest, List.append_assoc], hblank⟩
  have hquery := Rule.query_of_form hs hstarts hform (Rule.final_error hs.stops)
  exact Rule.definition_of_form hs (f := .query) ⟨_, hstarts⟩ (Rule.bind_of_error hquery) (Rule.final_error hs.stops)

theorem Document.parse_queryText_tooDeep {earlier later : List DeclarationText} {x : DeclarationText} {piece : String}
    {front : List Char} (hsize : (queryText name (earlier ++ x :: later)).utf8ByteSize ≤ limits.textSize)
    (hname : IsName name.toList) (hnames : ∀ y ∈ earlier ++ x :: later, IsName y.name.toList)
    (hearlier : ∀ y ∈ earlier, ∃ parts, y.parse limits = .ok parts) (hx : x.TooDeep limits front piece place) :
    Document.parse limits (queryText name (earlier ++ x :: later)) = .error (.tooDeep limits.depth
      (place.shift (Position.first.advance (queryHead name ++ DeclarationText.leading earlier ++ front)))) := by
  obtain ⟨rest, hinner, hends⟩ := DeclarationText.intercalate_eq_leading earlier x later
  obtain ⟨hentry, hrest⟩ := rest_entry_queryText limits name (earlier ++ x :: later)
  have hdeclared : Rule.DeclarationEnds (rest ++ [')', '{']) := by
    rcases hends with rfl | hcomma
    · exact Or.inr rfl
    · exact Or.inl (by rw [List.head?_append, hcomma, Option.some_or])
  have htext : (Cursor.entry limits (queryText name (earlier ++ x :: later))).rest =
      (Token.query.text.toList ++ [' ']) ++ (name.toList ++ (['('] ++
        (DeclarationText.leading earlier ++ (x.chars ++ (rest ++ [')', '{']))))) := by
    rw [hrest, queryText, String.toList_ofList, hinner]
    simp [queryHead]
  have h1 := Cursor.Reads.of_rest htext
  have hrest1 := Cursor.rest_past htext
  have h2 := Cursor.Reads.of_rest hrest1
  have hrest2 := Cursor.rest_past hrest1
  have hr := h1.trans h2
  generalize hd : ((Cursor.entry limits (queryText name (earlier ++ x :: later))).past
    (Token.query.text.toList ++ [' '])).past name.toList = d at hr hrest2
  rw [hentry] at hr
  have hdecls := DeclarationText.declarations_tooDeep (fun y hy => hnames y (List.mem_append_left _ hy)) hearlier hx
    (hnames x (List.mem_append_right _ List.mem_cons_self)) hr hrest2 hdeclared
  subst hd
  exact parse_of_failure hsize (.nil _) (Rule.definition_of_declarations hname htext hdecls) Strategy.thorough_standard.stops

/-- A query is parsed as the pieces are that it is put together from. If they all are parsed, the query is the only
operation and declares what they stand for. If the first of them that is not parsed nests too deeply, so does the query,
at the place that the piece has in it. -/
theorem Document.parse_queryText_by_pieces {xs : List DeclarationText}
    (hsize : (queryText name xs).utf8ByteSize ≤ limits.textSize) (hname : IsName name.toList)
    (hnames : ∀ x ∈ xs, IsName x.name.toList) :
    (∀ parts, xs.map (DeclarationText.parse limits) = parts.map .ok →
      ∃ vs, Document.parse limits (queryText name xs) = .ok ⟨[.ofHead ⟨1, 1⟩ .query (some ⟨name⟩) vs], []⟩ ∧
        vs.map Variable.parts = parts) ∧
    (∀ earlier x later front piece place, xs = earlier ++ x :: later →
      (∀ y ∈ earlier, ∃ parts, y.parse limits = .ok parts) → x.TooDeep limits front piece place →
      ∃ before after, before = queryHead name ++ DeclarationText.leading earlier ++ front ∧
        (queryText name xs).toList = before ++ piece.toList ++ after ∧
        Document.parse limits (queryText name xs) =
          .error (.tooDeep limits.depth (place.shift (Position.first.advance before)))) := by
  refine ⟨fun parts => parse_queryText hsize hname hnames, ?_⟩
  rintro earlier x later front piece place rfl hearlier hx
  obtain ⟨rest, hinner, -⟩ := DeclarationText.intercalate_eq_leading earlier x later
  obtain ⟨tail, hstands⟩ := hx.stands
  refine ⟨_, tail ++ (rest ++ [')', '{']), rfl, ?_, parse_queryText_tooDeep hsize hname hnames hearlier hx⟩
  rw [queryText, String.toList_ofList, hinner, hstands]
  simp

/-- With one bracket allowed, a list type and a list are read, and the second list in a list is too deep behind them. -/
theorem Document.parse_queryText_nested_default :
    (∃ v, Document.parse ⟨64, 1⟩ (queryText "q" [⟨"x", "[T]", some "[null]"⟩]) =
      .ok ⟨[.ofHead ⟨1, 1⟩ .query (some ⟨"q"⟩) [v]], []⟩ ∧
        v.parts = ("x", .list (.named ⟨"T"⟩ false) false, some (.list [.null]))) ∧
    Document.parse ⟨64, 1⟩ (queryText "q" [⟨"x", "T", none⟩, ⟨"y", "[T]", some "[\n[]]"⟩]) =
      .error (.tooDeep 1 ⟨2, 2⟩) := by
  have hq : IsName "q".toList := Lexeme.isName_of_all rfl rfl
  have hx : IsName "x".toList := Lexeme.isName_of_all rfl rfl
  have hy : IsName "y".toList := Lexeme.isName_of_all rfl rfl
  constructor
  · have hnames : ∀ x ∈ [DeclarationText.mk "x" "[T]" (some "[null]")], IsName x.name.toList := by simpa using hx
    have hsize : (queryText "q" [⟨"x", "[T]", some "[null]"⟩]).utf8ByteSize ≤ (Limits.mk 64 1).textSize := by decide
    obtain ⟨vs, hparse, hparts⟩ := (parse_queryText_by_pieces hsize hq hnames).1
      [("x", .list (.named ⟨"T"⟩ false) false, some (.list [.null]))] (by with_unfolding_all rfl)
    obtain ⟨v, rfl, hv⟩ := List.map_eq_singleton_iff.mp hparts
    exact ⟨v, hparse, hv⟩
  · have hnames : ∀ x ∈ [DeclarationText.mk "x" "T" none, ⟨"y", "[T]", some "[\n[]]"⟩], IsName x.name.toList := by
      simpa using ⟨hx, hy⟩
    have hsize : (queryText "q" [⟨"x", "T", none⟩, ⟨"y", "[T]", some "[\n[]]"⟩]).utf8ByteSize ≤
        (Limits.mk 64 1).textSize := by decide
    have hfirst : ∀ z ∈ [DeclarationText.mk "x" "T" none], ∃ parts, z.parse ⟨64, 1⟩ = .ok parts := by
      simp only [List.mem_singleton, forall_eq]
      exact ⟨("x", .named ⟨"T"⟩ false, none), by with_unfolding_all rfl⟩
    have htype : TypeRef.parse ⟨64, 1⟩ "[T]" = .ok (.list (.named ⟨"T"⟩ false) false) := by with_unfolding_all rfl
    have hvalue : Value.parse ⟨64, 1⟩ "[\n[]]" = .error (.tooDeep 1 ⟨2, 2⟩) := by with_unfolding_all rfl
    obtain ⟨_, _, rfl, -, hparse⟩ := (parse_queryText_by_pieces hsize hq hnames).2 _ _ [] _ _ _ rfl hfirst
      (.value htype rfl hvalue)
    exact hparse

end RequestDoc

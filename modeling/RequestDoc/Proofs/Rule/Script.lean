import RequestDoc.Proofs.Cursor.Sound
import RequestDoc.Proofs.Rule.Whole

/-!
Scripts of rules. A script says of which lexemes a rule is put together and how; running it is the rule. So it can be told
which parts of a rule are run, and at which cursors: the parts of a sequence one after the other, every form of a
choice at the cursor of the choice, an item of a repetition behind the items before it, and what is nested with one more
bracket open. The rules of the grammar all have scripts.
-/

namespace RequestDoc

/-- How a rule is put together. -/
inductive Script : Type → Type 1 where
  | lexeme {α : Type} (kind : Lexeme.Kind α) : Script α
  | tokenIf (t : Token) : Script Bool
  | position : Script Position
  | pure {α : Type} (a : α) : Script α
  | tooDeep {α : Type} : Script α
  | bind {α β : Type} (first : Script α) (next : α → Script β) : Script β
  | choice {ι α : Type} (forms : List ι) (form : ι → Script α) : Script α
  | maybe {α : Type} (script : Script α) : Script (Option α)
  | many {α : Type} (script : Script α) : Script (List α)
  | nested {α : Type} (script : Script α) : Script α
  | levels {α : Type} (script : Nat → Script α) : Script α

/-- The second cursor stands at or behind the first one in the same text, with no more brackets open than allowed. -/
structure Cursor.Onward (c d : Cursor) : Prop where
  valid : c.Valid → d.Valid
  text : d.text = c.text
  limit : d.depthLimit = c.depthLimit
  offset : c.offset ≤ d.offset
  depth : c.depth ≤ c.depthLimit → d.depth ≤ d.depthLimit

namespace Cursor.Onward

variable {c d e : Cursor}

theorem refl (c : Cursor) : c.Onward c :=
  ⟨id, rfl, rfl, Nat.le_refl _, id⟩

theorem trans (h : c.Onward d) (k : d.Onward e) : c.Onward e where
  valid hc := k.valid (h.valid hc)
  text := k.text.trans h.text
  limit := k.limit.trans h.limit
  offset := Nat.le_trans h.offset k.offset
  depth hc := k.depth (h.depth hc)

theorem of_reads {read : List Char} (h : c.Reads read d) : c.Onward d where
  valid := h.valid
  text := by
    rw [h.eq_past]
    rfl
  limit := h.depthLimit
  offset := h.offset_le
  depth hc := by rwa [h.depth, h.depthLimit]

theorem of_nested (h : c.depth < c.depthLimit) : c.Onward (c.withDepth (c.depth + 1)) where
  valid hc := hc.withDepth _
  text := rfl
  limit := rfl
  offset := Nat.le_refl _
  depth _ := h

end Cursor.Onward

namespace Script

variable {α β : Type} {retry : Retry} {c d : Cursor}

/-- The rule that a script puts together. -/
def run (retry : Retry) {α : Type} : Script α → Rule α
  | lexeme kind => Rule.lexeme kind.read
  | tokenIf t => Rule.tokenIf t
  | position => Rule.position
  | pure a => Pure.pure a
  | tooDeep => fun c => .error (.tooDeep c.depthLimit c.position)
  | bind first next => first.run retry >>= fun a => (next a).run retry
  | choice forms form => Rule.choice retry (forms.map fun f => (form f).run retry)
  | maybe script => Rule.maybe retry (script.run retry)
  | many script => Rule.many retry (script.run retry)
  | nested script => Rule.nested (script.run retry)
  | levels script => fun c => (script (c.depthLimit - c.depth + 1)).run retry c

/-- Running the first script at the first cursor may run the second script, a part of it, at the second cursor. -/
inductive Starts (retry : Retry) : {α β : Type} → Script α → Cursor → Script β → Cursor → Prop where
  | self {α : Type} {x : Script α} {c : Cursor} : Starts retry x c x c
  | first {α β γ : Type} {x : Script α} {next : α → Script β} {y : Script γ} {c d : Cursor} :
      Starts retry x c y d → Starts retry (bind x next) c y d
  | next {α β γ : Type} {x : Script α} {next : α → Script β} {y : Script γ} {c d e : Cursor} {a : α} :
      x.run retry c = .ok (a, e) → Starts retry (next a) e y d → Starts retry (bind x next) c y d
  | form {ι α β : Type} {forms : List ι} {form : ι → Script α} {f : ι} {y : Script β} {c d : Cursor} :
      f ∈ forms → Starts retry (form f) c y d → Starts retry (choice forms form) c y d
  | maybe {α β : Type} {x : Script α} {y : Script β} {c d : Cursor} :
      Starts retry x c y d → Starts retry (maybe x) c y d
  | item {α β : Type} {x : Script α} {y : Script β} {c d e : Cursor} {as : List α} :
      Rule.Run (x.run retry) c as e → Starts retry x e y d → Starts retry (many x) c y d
  | nested {α β : Type} {x : Script α} {y : Script β} {c d : Cursor} :
      c.depth < c.depthLimit → Starts retry x (c.withDepth (c.depth + 1)) y d → Starts retry (nested x) c y d
  | levels {α β : Type} {x : Nat → Script α} {y : Script β} {c d : Cursor} :
      Starts retry (x (c.depthLimit - c.depth + 1)) c y d → Starts retry (levels x) c y d

/-! ### What holds of all scripts -/

/-- Every rule that is put together reads what comes next, and meets its errors ahead. -/
theorem moves_run (x : Script α) : (x.run retry).Moves := by
  induction x with
  | lexeme kind => exact kind.moves
  | tokenIf t => exact Rule.moves_tokenIf t
  | position => exact Rule.moves_position
  | pure a => exact Rule.moves_pure a
  | tooDeep => exact Rule.moves_tooDeep
  | bind first next ihFirst ihNext => exact ihFirst.bind ihNext
  | choice forms form ih =>
    refine Rule.moves_choice fun rule hrule => ?_
    obtain ⟨f, -, rfl⟩ := List.mem_map.mp hrule
    exact ih f
  | maybe script ih => exact ih.maybe
  | many script ih => exact ih.many
  | nested script ih => exact ih.nested
  | levels script ih => exact ⟨fun h => (ih _).reads h, fun h => (ih _).meets h⟩

theorem Starts.onward {x : Script α} {y : Script β} (h : x.Starts retry c y d) : c.Onward d := by
  induction h with
  | self => exact .refl _
  | first _ ih => exact ih
  | @next _ _ _ x _ _ _ _ _ _ hx _ ih =>
    obtain ⟨text, hr⟩ := x.moves_run.reads hx
    exact (Cursor.Onward.of_reads hr).trans ih
  | form _ _ ih => exact ih
  | maybe _ ih => exact ih
  | @item _ _ x _ _ _ _ _ hrun _ ih =>
    obtain ⟨text, hr⟩ := x.moves_run.run hrun
    exact (Cursor.Onward.of_reads hr).trans ih
  | nested hlt _ ih => exact (Cursor.Onward.of_nested hlt).trans ih
  | levels _ ih => exact ih

end Script

/-! ### The scripts of the grammar -/

namespace Script

variable {α : Type} {retry : Retry} {s : Strategy}

instance : Monad Script where
  pure := pure
  bind := bind

def token (t : Token) : Script Unit :=
  lexeme (.token t)

/-- Items with separators between them, or nothing. -/
def sepBy (item : Script α) (separator : Script Unit) : Script (List α) := do
  match ← maybe item with
  | none => return []
  | some first =>
    let others ← many (do separator; item)
    return first :: others

/-- The script, and then the end of the text. -/
def toEnd (script : Script α) : Script α := do
  let a ← script
  let _ ← lexeme .endOfInput
  return a

def member (value : Script Value) : Script (String × Value) := do
  let key ← lexeme .quoted
  token .colon
  let v ← value
  return (key, v)

def list (value : Script Value) : Script Value := do
  token .openBracket
  nested do
    let items ← sepBy value (token .comma)
    token .closeBracket
    return .list items

def object (value : Script Value) : Script Value := do
  token .openBrace
  nested do
    let members ← sepBy (member value) (token .comma)
    token .closeBrace
    return .object (.ofList members)

def literalForm (value : Script Value) : LiteralForm → Script Value
  | .number => do
    let x ← lexeme .number
    return .number x
  | .object => object value
  | .list => list value
  | .boolean b => do
    token (if b then .trueWord else .falseWord)
    return .boolean b
  | .null => do
    token .nullWord
    return .null

def literalWithin (s : Strategy) : Nat → Script Value
  | 0 => tooDeep
  | n + 1 => choice s.literalForms (literalForm (literalWithin s n))

/-- The script of a literal. -/
def literal (s : Strategy) : Script Value :=
  levels (literalWithin s)

def typeForm (item : Script TypeRef) : TypeForm → Script TypeRef
  | .named => do
    let name ← lexeme .name
    let required ← tokenIf .bang
    return .named ⟨name⟩ required
  | .list => do
    token .openBracket
    nested do
      let t ← item
      token .closeBracket
      let required ← tokenIf .bang
      return .list t required

def typeRefWithin (s : Strategy) : Nat → Script TypeRef
  | 0 => tooDeep
  | n + 1 => choice s.typeForms (typeForm (typeRefWithin s n))

/-- The script of a type reference. -/
def typeRef (s : Strategy) : Script TypeRef :=
  levels (typeRefWithin s)

def defaultValue (s : Strategy) : Script Value := do
  token .equals
  literal s

def declaration (s : Strategy) : Script Variable := do
  let place ← position
  token .dollar
  let name ← lexeme .name
  token .colon
  let type ← typeRef s
  let value ← maybe (defaultValue s)
  return ⟨place, ⟨name⟩, type, value⟩

def declarations (s : Strategy) : Script (List Variable) := do
  token .openParen
  let vs ← sepBy (declaration s) (token .comma)
  token .closeParen
  return vs

def queryForm (s : Strategy) : QueryForm → Script Operation
  | .shorthand => do
    let place ← position
    token .openBrace
    let name ← lexeme .name
    token .closeBrace
    return .ofHead place .query (some ⟨name⟩) []
  | .declared => do
    let place ← position
    token .query
    let name ← lexeme .name
    let vs ← maybe (declarations s)
    token .openBrace
    return .ofHead place .query (some ⟨name⟩) (vs.getD [])

def definitionForm (s : Strategy) : DefinitionForm → Script Definition
  | .query => do
    let op ← choice s.queryForms (queryForm s)
    return .query op
  | .mutation => do
    let place ← position
    token .mutation
    return .mutation place

/-- The script of a definition. -/
def definition (s : Strategy) : Script Definition :=
  choice s.definitionForms (definitionForm s)

/-- The script of a document. -/
def document (s : Strategy) : Script Document := do
  let ds ← many (definition s)
  return .ofDefinitions ds

/-! ### Running the scripts -/

theorem run_bind {β : Type} (x : Script α) (next : α → Script β) :
    (x >>= next).run retry = x.run retry >>= fun a => (next a).run retry :=
  rfl

theorem run_maybe (x : Script α) : (maybe x).run retry = Rule.maybe retry (x.run retry) :=
  rfl

theorem run_many (x : Script α) : (many x).run retry = Rule.many retry (x.run retry) :=
  rfl

theorem run_nested (x : Script α) : (nested x).run retry = Rule.nested (x.run retry) :=
  rfl

theorem run_choice {ι : Type} (forms : List ι) (form : ι → Script α) :
    (choice forms form).run retry = Rule.choice retry (forms.map fun f => (form f).run retry) :=
  rfl

theorem run_sepBy (item : Script α) (separator : Script Unit) :
    (sepBy item separator).run retry = Rule.sepBy retry (item.run retry) (separator.run retry) := by
  show Rule.maybe retry (item.run retry) >>= _ = Rule.maybe retry (item.run retry) >>= _
  congr 1
  funext found
  cases found <;> rfl

theorem run_list (value : Script Value) : (list value).run s.retry = Rule.list s (value.run s.retry) := by
  simp only [list, run_bind, run_nested, run_sepBy]
  rfl

theorem run_object (value : Script Value) : (object value).run s.retry = Rule.object s (value.run s.retry) := by
  simp only [object, run_bind, run_nested, run_sepBy]
  rfl

theorem run_literalForm (value : Script Value) (form : LiteralForm) :
    (literalForm value form).run s.retry = Rule.literalForm s (value.run s.retry) form := by
  cases form with
  | number => rfl
  | object => exact run_object value
  | list => exact run_list value
  | boolean b => rfl
  | null => rfl

theorem run_literalWithin (n : Nat) : (literalWithin s n).run s.retry = Rule.literalWithin s n := by
  induction n with
  | zero => rfl
  | succ n ih =>
    rw [literalWithin, run_choice]
    simp only [run_literalForm, ih]
    rfl

theorem run_literal : (literal s).run s.retry = Rule.literal s := by
  funext c
  exact congrFun (run_literalWithin _) c

theorem run_typeForm (item : Script TypeRef) (form : TypeForm) :
    (typeForm item form).run s.retry = Rule.typeForm (item.run s.retry) form := by
  cases form <;> rfl

theorem run_typeRefWithin (n : Nat) : (typeRefWithin s n).run s.retry = Rule.typeRefWithin s n := by
  induction n with
  | zero => rfl
  | succ n ih =>
    rw [typeRefWithin, run_choice]
    simp only [run_typeForm, ih]
    rfl

theorem run_typeRef : (typeRef s).run s.retry = Rule.typeRef s := by
  funext c
  exact congrFun (run_typeRefWithin _) c

theorem run_defaultValue : (defaultValue s).run s.retry = Rule.defaultValue s := by
  simp only [defaultValue, run_bind, run_literal]
  rfl

theorem run_declaration : (declaration s).run s.retry = Rule.declaration s := by
  simp only [declaration, run_bind, run_maybe, run_typeRef, run_defaultValue]
  rfl

theorem run_declarations : (declarations s).run s.retry = Rule.declarations s := by
  simp only [declarations, run_bind, run_sepBy, run_declaration]
  rfl

theorem run_queryForm (form : QueryForm) : (queryForm s form).run s.retry = Rule.queryForm s form := by
  cases form with
  | shorthand => rfl
  | declared =>
    simp only [queryForm, run_bind, run_maybe, run_declarations]
    rfl

theorem run_definitionForm (form : DefinitionForm) : (definitionForm s form).run s.retry = Rule.definitionForm s form := by
  cases form with
  | query =>
    simp only [definitionForm, run_bind, run_choice, run_queryForm]
    rfl
  | mutation => rfl

theorem run_definition : (definition s).run s.retry = Rule.definition s := by
  simp only [definition, run_choice, run_definitionForm]
  rfl

theorem run_document : (document s).run s.retry = Rule.document s := by
  simp only [document, run_bind, run_many, run_definition]
  rfl

theorem run_toEnd (script : Script α) : script.toEnd.run retry = (script.run retry).toEnd :=
  rfl

end Script

end RequestDoc

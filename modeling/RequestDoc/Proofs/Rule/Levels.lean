import RequestDoc.Proofs.Rule.Ahead

/-!
Levels that are enough. A bracket is read for every level that a literal or a type reference goes down, and it takes both
a byte of the text and a bracket of the limit. So the recursion goes no deeper than there are bytes left, whatever the
limit allows: with more levels than that, literals and references come to what they come to with all levels, and they
are told by themselves, without counting levels.
-/

namespace RequestDoc.Rule

variable {α β : Type} {retry : Retry} {s : Strategy} {c d : Cursor} {levels : Nat}

/-! ### Rules that agree ahead of a cursor -/

/-- The rules come to the same wherever a reading from the cursor leads. -/
structure SameAhead (c : Cursor) (rule rule' : Rule α) : Prop where
  eq : ∀ {text : List Char} {d : Cursor}, c.Reads text d → rule d = rule' d

theorem SameAhead.refl (c : Cursor) (rule : Rule α) : SameAhead c rule rule :=
  ⟨fun _ => rfl⟩

theorem SameAhead.here {rule rule' : Rule α} (h : SameAhead c rule rule') : rule c = rule' c :=
  h.eq (.refl c)

theorem SameAhead.bind {rule rule' : Rule α} {next next' : α → Rule β} (hm : rule.Moves) (h : SameAhead c rule rule')
    (hn : ∀ a, SameAhead c (next a) (next' a)) : SameAhead c (rule >>= next) (rule' >>= next') where
  eq {text d} hd := by
    cases hr : rule d with
    | error err => rw [bind_of_error hr, bind_of_error ((h.eq hd).symm.trans hr)]
    | ok r =>
      rw [bind_of_ok hr, bind_of_ok ((h.eq hd).symm.trans hr)]
      obtain ⟨more, he⟩ := hm.reads hr
      exact (hn r.1).eq (hd.trans he)

theorem SameAhead.maybe {rule rule' : Rule α} (h : SameAhead c rule rule') : SameAhead c (maybe retry rule) (maybe retry rule') where
  eq hd := by
    unfold Rule.maybe
    rw [h.eq hd]

theorem SameAhead.many {rule rule' : Rule α} (hm : rule.Moves) (h : SameAhead c rule rule') :
    SameAhead c (many retry rule) (many retry rule') where
  eq {text d} hd := by
    have hfrom : ∀ items, collectFrom retry rule items d = collectFrom retry rule' items d := by
      intro items
      fun_induction collectFrom retry rule items d generalizing text with
      | case1 items d a e hr hlt ih =>
        obtain ⟨more, he⟩ := hm.reads hr
        rw [ih (hd.trans he), collectFrom_of_step ((h.eq hd).symm.trans hr) hlt]
      | case2 items d a e hr hlt => rw [collectFrom_of_still ((h.eq hd).symm.trans hr) hlt]
      | case3 items d err hr => rw [collectFrom_of_error ((h.eq hd).symm.trans hr)]
    rw [Rule.many, Rule.many, collect, collect, hfrom]

theorem SameAhead.sepBy {item item' : Rule α} (hm : item.Moves) (h : SameAhead c item item') :
    SameAhead c (sepBy retry item (token .comma)) (sepBy retry item' (token .comma)) := by
  refine SameAhead.bind hm.maybe h.maybe fun first => ?_
  have hboth : (do token .comma; item).Moves := (moves_token _).bind fun _ => hm
  have hsame : SameAhead c (do token .comma; item) (do token .comma; item') := SameAhead.bind (moves_token _) (.refl c _) fun _ => h
  cases first with
  | none => exact .refl c _
  | some a => exact SameAhead.bind hboth.many (hsame.many hboth) fun _ => .refl c _

theorem choice_congr {φ : Type} {forms : List φ} {rule rule' : φ → Rule α} (h : ∀ f, rule f c = rule' f c) :
    choice retry (forms.map rule) c = choice retry (forms.map rule') c := by
  have hfirst : ∀ failure, firstOf retry failure (forms.map rule) c = firstOf retry failure (forms.map rule') c := by
    induction forms with
    | nil => exact fun _ => rfl
    | cons f forms ih =>
      intro failure
      simp only [List.map_cons, firstOf, h f, ih]
  exact hfirst none

/-! ### Behind a bracket -/

/-- The second cursor stands where fewer brackets may be opened and less is left. -/
structure Deeper (c d : Cursor) : Prop where
  valid : d.Valid
  room : d.room < c.room
  left : d.left < c.left

theorem Deeper.of_reads {e : Cursor} {text : List Char} (h : Deeper c d) (hr : d.Reads text e) : Deeper c e where
  valid := hr.valid h.valid
  room := by
    rw [hr.room]
    exact h.room
  left := by
    have hd := h.left
    rw [h.valid.left, hr.rest, byteSize_append] at hd
    rw [(hr.valid h.valid).left]
    omega

/-- Rules behind a bracket come to the same if they do wherever the text goes on in the brackets. -/
theorem nested_congr {opening : Token} {body body' : Rule α} (hc : c.Valid)
    (h : ∀ {d}, Deeper c d → SameAhead d body body') :
    (do token opening; nested body) c = (do token opening; nested body') c := by
  cases hopen : token opening c with
  | error err => rw [bind_of_error hopen, bind_of_error hopen]
  | ok r =>
    obtain ⟨u, e⟩ := r
    rw [bind_of_ok hopen, bind_of_ok hopen]
    unfold nested
    split
    · rfl
    next hlt =>
      obtain ⟨_, ⟨w, -, rfl⟩, hr, -⟩ := reads_token hopen
      -- the bracket takes a byte of the text and one of the brackets that may be opened
      have hroom := Cursor.room_withDepth (Nat.not_le.mp hlt)
      have hleft := hr.left_lt hc (List.append_ne_nil_of_left_ne_nil opening.text_ne_nil w)
      rw [hr.room] at hroom
      have hdeeper : Deeper c (e.withDepth (e.depth + 1)) := ⟨(hr.valid hc).withDepth _, by omega, hleft⟩
      rw [(h hdeeper).here]

/-! ### Literals and type references -/

theorem literalForm_congr {value value' : Rule Value} (hm : value.Moves) (h : ∀ {d}, Deeper c d → value d = value' d)
    (hc : c.Valid) (f : LiteralForm) : literalForm s value f c = literalForm s value' f c := by
  have hvalue : ∀ {d}, Deeper c d → SameAhead d value value' := fun hd => ⟨fun hr => h (hd.of_reads hr)⟩
  cases f with
  | object =>
    refine nested_congr hc fun {d} hd => ?_
    have hmember : SameAhead d (member value) (member value') :=
      SameAhead.bind moves_quoted (.refl d _) fun _ => SameAhead.bind (moves_token _) (.refl d _) fun _ =>
        SameAhead.bind hm (hvalue hd) fun _ => .refl d _
    exact SameAhead.bind hm.member.sepBy (hmember.sepBy hm.member) fun _ => .refl d _
  | list =>
    refine nested_congr hc fun {d} hd => ?_
    exact SameAhead.bind hm.sepBy ((hvalue hd).sepBy hm) fun _ => .refl d _
  | _ => rfl

theorem typeForm_congr {item item' : Rule TypeRef} (hm : item.Moves) (h : ∀ {d}, Deeper c d → item d = item' d)
    (hc : c.Valid) (f : TypeForm) : typeForm item f c = typeForm item' f c := by
  cases f with
  | named => rfl
  | list =>
    refine nested_congr hc fun {d} hd => ?_
    exact SameAhead.bind hm ⟨fun hr => h (hd.of_reads hr)⟩ fun _ => .refl d _

/-- With more levels than bytes are left or brackets may be opened, literals are the same. -/
theorem literalWithin_congr {more : Nat} (hc : c.Valid) (h : min c.room c.left < levels) (h' : min c.room c.left < more) :
    literalWithin s levels c = literalWithin s more c := by
  induction levels generalizing c more with
  | zero => omega
  | succ levels ih =>
    cases more with
    | zero => omega
    | succ more =>
      refine choice_congr fun f => literalForm_congr (moves_literalWithin s levels) (fun {d} hd => ?_) hc f
      have hroom := hd.room
      have hleft := hd.left
      exact ih hd.valid (by omega) (by omega)

theorem typeRefWithin_congr {more : Nat} (hc : c.Valid) (h : min c.room c.left < levels) (h' : min c.room c.left < more) :
    typeRefWithin s levels c = typeRefWithin s more c := by
  induction levels generalizing c more with
  | zero => omega
  | succ levels ih =>
    cases more with
    | zero => omega
    | succ more =>
      refine choice_congr fun f => typeForm_congr (moves_typeRefWithin s levels) (fun {d} hd => ?_) hc f
      have hroom := hd.room
      have hleft := hd.left
      exact ih hd.valid (by omega) (by omega)

theorem literalWithin_eq_literal (hc : c.Valid) (h : min c.room c.left < levels) : literalWithin s levels c = literal s c :=
  literalWithin_congr hc h (Nat.lt_succ_of_le (Nat.min_le_left _ _))

theorem typeRefWithin_eq_typeRef (hc : c.Valid) (h : min c.room c.left < levels) : typeRefWithin s levels c = typeRef s c :=
  typeRefWithin_congr hc h (Nat.lt_succ_of_le (Nat.min_le_left _ _))

/-- A literal is a choice of forms with literals in them. -/
theorem literal_eq_choice (hc : c.Valid) : literal s c = choice s.retry (s.literalForms.map (literalForm s (literal s))) c := by
  rw [← literalWithin_eq_literal hc (show min c.room c.left < c.room + 1 + 1 by omega)]
  refine choice_congr fun f => literalForm_congr (moves_literalWithin s _) (fun {d} hd => ?_) hc f
  have hroom := hd.room
  exact literalWithin_eq_literal hd.valid (by omega)

theorem typeRef_eq_choice (hc : c.Valid) : typeRef s c = choice s.retry (s.typeForms.map (typeForm (typeRef s))) c := by
  rw [← typeRefWithin_eq_typeRef hc (show min c.room c.left < c.room + 1 + 1 by omega)]
  refine choice_congr fun f => typeForm_congr (moves_typeRefWithin s _) (fun {d} hd => ?_) hc f
  have hroom := hd.room
  exact typeRefWithin_eq_typeRef hd.valid (by omega)

end RequestDoc.Rule

import RequestDoc.Proofs.Rule.Carries.Grammar
import RequestDoc.Proofs.Rule.Nests
import RequestDoc.Proofs.Rule.Whole

/-!
The limit of depth. A greater limit changes nothing but that it is exceeded later, if at all. A text that is a
literal or a type reference under some limit is one under every limit that its brackets keep, and under a smaller
limit it is refused at the first character behind the bracket that exceeds it and the blanks that follow.
-/

namespace RequestDoc

open Nesting

variable {α : Type} {rule : Rule α} {limits : Limits} {size depth depth' : Nat} {text : String} {c : Cursor} {err : ParseError}

/-- The second outcome, under a greater limit of depth, is the first one unless the first limit was exceeded. -/
structure Outlasts (depth : Nat) (first second : Except ParseError α) : Prop where
  limit : ∀ {limit place}, first = .error (.tooDeep limit place) → limit = depth
  same : (∀ limit place, first ≠ .error (.tooDeep limit place)) → second = first

/-- The outcome tells how deeply the text nests. -/
structure Measures (depth : Nat) (text : List Char) (outcome : Except ParseError α) : Prop where
  accepts : (∃ a, outcome = .ok a) ↔ deepest text ≤ depth
  refuses : depth < deepest text → ∃ front w x rest, text = front ++ w ++ x :: rest ∧
    State.initial.overrun? depth text = some front ∧ Blanks w ∧ Character.isBlank x = false ∧
    outcome = .error (.tooDeep depth (Position.first.advance (front ++ w)))

/-! ### The same text under a greater limit -/

/-- The text itself, with more brackets allowed in it. -/
def Placement.deepened (text : String) (more : Nat) : Placement :=
  ⟨text, 0, .first, [], more⟩

theorem Placement.sealed_deepened (more : Nat) (rest : List Char) : (deepened text more).Sealed rest :=
  Or.inl rfl

theorem Placement.settles_deepened {more : Nat} (h : ∀ limit place, err ≠ .tooDeep limit place) :
    (deepened text more).Settles c err :=
  ⟨fun _ _ => sealed_deepened more _, fun heq => absurd heq (h _ _)⟩

theorem Placement.cursor_entry (hle : depth ≤ depth') :
    (deepened text (depth' - depth)).cursor (Cursor.entry ⟨size, depth⟩ text) = Cursor.entry ⟨size, depth'⟩ text := by
  have hstart : (deepened text (depth' - depth)).cursor (.start text depth) = .start text depth' := by
    simp [cursor, Cursor.start, deepened, Position.shift_first_right, Nat.add_sub_cancel' hle]
  rw [Cursor.entry, ← cursor_skipBlanks (Cursor.valid_start text depth) (sealed_deepened _ _), hstart]
  rfl

theorem Placement.fits_entry (hle : depth ≤ depth') :
    (deepened text (depth' - depth)).Fits (Cursor.entry ⟨size, depth⟩ text) where
  inner := Cursor.valid_entry _ _
  outer := by
    rw [cursor_entry hle]
    exact Cursor.valid_entry _ _

namespace Rule

/-- A limit of depth that is not exceeded makes no difference to what a rule gives. -/
theorem outlasts_result (h : rule.Carries (.deepened text (depth' - depth)) id rule) (hle : depth ≤ depth') :
    Outlasts depth (rule.result ⟨size, depth⟩ text) (rule.result ⟨size, depth'⟩ text) := by
  by_cases hsize : text.utf8ByteSize ≤ size
  · have hopen (n : Nat) : Cursor.open? ⟨size, n⟩ text = .ok (Cursor.entry ⟨size, n⟩ text) := Cursor.open?_of_size hsize
    have hfits : (Placement.deepened text (depth' - depth)).Fits (Cursor.entry ⟨size, depth⟩ text) := Placement.fits_entry hle
    rw [result_of_open? (hopen depth), result_of_open? (hopen depth'), ← Placement.cursor_entry hle]
    cases hr : rule (Cursor.entry ⟨size, depth⟩ text) with
    | ok r =>
      rw [h.ok hfits hr (Placement.sealed_deepened _ _)]
      exact ⟨fun h => (nomatch h), fun _ => rfl⟩
    | error err =>
      refine ⟨fun heq => ?_, fun hne => ?_⟩
      · obtain rfl := Except.error.inj heq
        exact (h.moves.meets hr).limit_eq
      · rw [h.error hfits hr (Placement.settles_deepened fun limit place heq => hne limit place (congrArg _ heq))]
        exact congrArg Except.error err.shift_first
  · have hlarge (n : Nat) : (Limits.mk size n).textSize < text.utf8ByteSize := Nat.not_le.mp hsize
    rw [result_of_tooLarge (hlarge depth), result_of_tooLarge (hlarge depth')]
    exact ⟨fun h => (nomatch h), fun _ => rfl⟩

theorem Carries.toEnd {p : Placement} (hp : p.tail = []) (h : rule.Carries p id rule) :
    rule.toEnd.Carries p id rule.toEnd :=
  h.bind fun _ => (carries_endOfInput hp).bind fun _ => carries_pure rfl

theorem outlasts_parse (h : ∀ {p : Placement}, rule.Carries p id rule) (hle : depth ≤ depth') :
    Outlasts depth (rule.parse ⟨size, depth⟩ text) (rule.parse ⟨size, depth'⟩ text) := by
  rw [parse_eq_result, parse_eq_result]
  exact outlasts_result (h.toEnd rfl) hle

end Rule

theorem Document.outlasts_parse (hle : depth ≤ depth') :
    Outlasts depth (Document.parse ⟨size, depth⟩ text) (Document.parse ⟨size, depth'⟩ text) := by
  have hs := Strategy.committed_standard
  have hstay : List.map (Definition.shift · .first) = id := by
    rw [show (Definition.shift · .first) = id from funext Definition.shift_first, List.map_id_fun]
  have hdefinitions := (Rule.carries_definition (p := .deepened text (depth' - depth)) hs).many hs
  rw [show (Placement.deepened text (depth' - depth)).start = .first from rfl, hstay] at hdefinitions
  rw [parse_eq_result, parse_eq_result]
  exact Rule.outlasts_result (hdefinitions.bind fun _ => Rule.carries_pure rfl) hle

/-! ### The limits that a text keeps -/

namespace Rule

variable {a : α}

theorem size_of_result_eq_ok (h : rule.result limits text = .ok a) : text.utf8ByteSize ≤ limits.textSize :=
  size_of_result fun _ _ h' => nomatch h.symm.trans h'

theorem size_of_parse_eq_ok (h : rule.parse limits text = .ok a) : text.utf8ByteSize ≤ limits.textSize :=
  size_of_result_eq_ok ((parse_eq_result rule limits text).symm.trans h)

theorem closed_of_parse (hn : ∀ {room : Nat}, rule.Nests room) (h : rule.parse limits text = .ok a) :
    ∃ n, Closed text.toList n ∧ n ≤ limits.depth := by
  obtain ⟨d, hr, hd⟩ := (parse_eq_ok_iff_ends (size_of_parse_eq_ok h)).mp h
  obtain ⟨w, hw, hentry⟩ := Cursor.reads_entry limits text
  have hroom : rule.Nests (limits.depth + 1) := hn
  obtain ⟨read, n, hreads, hclosed, hle⟩ := hroom.ok (Nat.zero_le _) (by
    show limits.depth < 0 + (limits.depth + 1)
    omega) hr
  have htext : text.toList = w ++ (read ++ d.rest) := by
    rw [← hreads.rest]
    exact hentry.rest
  have hle : 0 + n ≤ limits.depth := hle
  refine ⟨max 0 (max n 0), ?_, by omega⟩
  rw [htext]
  exact (plain_blanks hw).closed.append (hclosed.append (plain_blanks hd).closed)

/-- Neither the size of the text nor its end comes to a limit of depth. -/
theorem tooDeep_of_parse {limit : Nat} {place : Position} (h : rule.parse limits text = .error (.tooDeep limit place)) :
    rule (Cursor.entry limits text) = .error (.tooDeep limit place) := by
  by_cases hsize : text.utf8ByteSize ≤ limits.textSize
  · rw [parse_eq_result, result_eq_error_iff hsize] at h
    rcases bind_eq_error.mp h with hr | ⟨a, d, -, hrest⟩
    · exact hr
    · rcases bind_eq_error.mp hrest with hend | ⟨_, _, -, hpure⟩
      · obtain ⟨m, -, heq⟩ := lexeme_eq_error.mp hend
        cases heq
      · cases hpure
  · rw [parse_eq_result, result_of_tooLarge (Nat.not_le.mp hsize)] at h
    cases h

/-- Where the limit is exceeded, a bracket of the text exceeds it. -/
theorem overruns_of_parse (hn : ∀ {room : Nat}, rule.Nests room) {limit : Nat} {place : Position}
    (h : rule.parse limits text = .error (.tooDeep limit place)) :
    ∃ front w rest, text.toList = front ++ w ++ rest ∧ State.initial.overrun? limits.depth text.toList = some front ∧
      Blanks w ∧ Flush rest ∧ place = Position.first.advance (front ++ w) := by
  have hr := tooDeep_of_parse h
  obtain ⟨v, hv, hentry⟩ := Cursor.reads_entry limits text
  have hroom : rule.Nests (limits.depth + 1) := hn
  obtain ⟨front, w, d, hreads, hw, hflush, rfl, hover⟩ := hroom.tooDeep (Nat.zero_le _) (by
    show limits.depth < 0 + (limits.depth + 1)
    omega) hr
  have hall := hentry.trans hreads
  have htext : text.toList = v ++ (front ++ w ++ d.rest) := by
    rw [← List.append_assoc]
    exact hall.rest
  have hblanks := (plain_blanks hv).closed 0
  refine ⟨v ++ front, w, d.rest, by rw [htext]; simp, ?_, hw, hflush, ?_⟩
  · have hwithin : State.initial.deepest v ≤ limits.depth := by
      rw [State.initial, hblanks.2]
      exact Nat.zero_le _
    rw [htext, State.overrun?_append hwithin, State.initial, hblanks.1]
    have hover : (State.mk .outside 0).overrun? limits.depth (front ++ w) = some front := hover
    rw [State.overrun?_append_of_some hover]
    rfl
  · rw [hall.position, List.append_assoc]
    rfl

/-- What a text is under one limit, it is under another one, or that one is exceeded. -/
theorem parse_eq_ok_or_tooDeep (hcarries : ∀ {p : Placement}, rule.Carries p id rule)
    (h : rule.parse ⟨size, depth'⟩ text = .ok a) : rule.parse ⟨size, depth⟩ text = .ok a ∨
      ∃ place, rule.parse ⟨size, depth⟩ text = .error (.tooDeep depth place) := by
  by_cases hdepth : depth ≤ depth'
  · have hout : Outlasts depth (rule.parse ⟨size, depth⟩ text) (rule.parse ⟨size, depth'⟩ text) :=
      outlasts_parse hcarries hdepth
    by_cases htoo : ∃ limit place, rule.parse ⟨size, depth⟩ text = .error (.tooDeep limit place)
    · obtain ⟨limit, place, htoo⟩ := htoo
      obtain rfl := hout.limit htoo
      exact Or.inr ⟨place, htoo⟩
    · rw [← hout.same fun limit place heq => htoo ⟨limit, place, heq⟩]
      exact Or.inl h
  · have hout : Outlasts depth' (rule.parse ⟨size, depth'⟩ text) (rule.parse ⟨size, depth⟩ text) :=
      outlasts_parse hcarries (Nat.le_of_not_le hdepth)
    rw [hout.same fun limit place heq => nomatch h.symm.trans heq]
    exact Or.inl h

theorem measures_parse (hcarries : ∀ {p : Placement}, rule.Carries p id rule) (hn : ∀ {room : Nat}, rule.Nests room)
    (h : rule.parse ⟨size, depth'⟩ text = .ok a) : Measures depth text.toList (rule.parse ⟨size, depth⟩ text) := by
  obtain ⟨n, hclosed, hle⟩ := closed_of_parse hn h
  have hdeepest := hclosed.deepest_eq
  rcases parse_eq_ok_or_tooDeep hcarries h with hok | ⟨place, htoo⟩
  · obtain ⟨m, hclosed', hle'⟩ := closed_of_parse hn hok
    have hm := hclosed'.deepest_eq
    have hle' : m ≤ depth := hle'
    exact ⟨iff_of_true ⟨a, hok⟩ (by omega), fun hlt => absurd hlt (by omega)⟩
  · obtain ⟨front, w, rest, htext, hover, hw, hflush, rfl⟩ := overruns_of_parse hn htoo
    have hover : State.initial.overrun? depth text.toList = some front := hover
    have hdeep : depth < deepest text.toList := by
      refine Nat.lt_of_not_le fun hle => ?_
      rw [(State.overrun?_eq_none_iff (Nat.zero_le depth)).mpr hle] at hover
      cases hover
    refine ⟨iff_of_false ?_ (Nat.not_le.mpr hdeep), fun _ => ?_⟩
    · rintro ⟨b, hb⟩
      rw [htoo] at hb
      cases hb
    · -- behind the bracket something has to close it
      cases rest with
      | nil =>
        have hlevel := State.level_after_overrun hover
        rw [← State.level_after_blanks hw, ← State.after_append] at hlevel
        rw [List.append_nil] at htext
        rw [← htext, State.initial, (hclosed 0).1] at hlevel
        exact absurd hlevel (Nat.not_lt_zero depth)
      | cons x rest => exact ⟨front, w, x, rest, htext, hover, hw, hflush x rfl, htoo⟩

end Rule

/-- Under a greater limit of depth every outcome stays what it was, unless it told that the limit was exceeded. What
is a value or a type under the greatest limit is one exactly under the limits that its brackets keep. Any other limit
is exceeded at the first bracket that does not keep it, and told where the text goes on behind that bracket. -/
theorem parse_under_depth_limits (size : Nat) (text : String) :
    (∀ depth depth', depth ≤ depth' →
      Outlasts depth (Value.parse ⟨size, depth⟩ text) (Value.parse ⟨size, depth'⟩ text) ∧
      Outlasts depth (TypeRef.parse ⟨size, depth⟩ text) (TypeRef.parse ⟨size, depth'⟩ text) ∧
      Outlasts depth (Document.parse ⟨size, depth⟩ text) (Document.parse ⟨size, depth'⟩ text)) ∧
    (∀ v, Value.parse ⟨size, Limits.greatest⟩ text = .ok v →
      ∀ depth, Measures depth text.toList (Value.parse ⟨size, depth⟩ text)) ∧
    (∀ t, TypeRef.parse ⟨size, Limits.greatest⟩ text = .ok t →
      ∀ depth, Measures depth text.toList (TypeRef.parse ⟨size, depth⟩ text)) := by
  have hs := Strategy.committed_standard
  refine ⟨fun depth depth' hle => ⟨?_, ?_, Document.outlasts_parse hle⟩, fun v h depth => ?_, fun t h depth => ?_⟩
  · exact Rule.outlasts_parse (Rule.carries_literal hs) hle
  · exact Rule.outlasts_parse (Rule.carries_typeRef hs) hle
  · exact Rule.measures_parse (Rule.carries_literal hs) (Rule.nests_literal _) h
  · exact Rule.measures_parse (Rule.carries_typeRef hs) (Rule.nests_typeRef _) h

/-- A list in a list, as a value, as a type and as a default, is too deep where one bracket is allowed. -/
theorem parse_lists_under_limits :
    Value.parse ⟨64, Limits.greatest⟩ "[ [true]]" = .ok (.list [.list [.boolean true]]) ∧
      Measures 1 "[ [true]]".toList (Value.parse ⟨64, 1⟩ "[ [true]]") ∧
      TypeRef.parse ⟨64, Limits.greatest⟩ "[[a]]" = .ok (.list (.list (.named ⟨"a"⟩ false) false) false) ∧
      Measures 1 "[[a]]".toList (TypeRef.parse ⟨64, 1⟩ "[[a]]") ∧
      Outlasts 1 (Document.parse ⟨64, 1⟩ "query a($b:[c]=[[1]])\x7b") (Document.parse ⟨64, 2⟩ "query a($b:[c]=[[1]])\x7b") := by
  have hvalue : Value.parse ⟨64, Limits.greatest⟩ "[ [true]]" = .ok (.list [.list [.boolean true]]) := by
    with_unfolding_all rfl
  have htype : TypeRef.parse ⟨64, Limits.greatest⟩ "[[a]]" = .ok (.list (.list (.named ⟨"a"⟩ false) false) false) := by
    with_unfolding_all rfl
  exact ⟨hvalue, (parse_under_depth_limits 64 _).2.1 _ hvalue 1, htype, (parse_under_depth_limits 64 _).2.2 _ htype 1,
    ((parse_under_depth_limits 64 _).1 1 2 (by decide)).2.2⟩

end RequestDoc

import RequestDoc.Proofs.Cursor.Sound
import RequestDoc.Proofs.Document.Exact
import RequestDoc.Proofs.Parse.Depth

/-!
The places of a document. Every operation and every variable knows the place where it starts. Offsets grow from lexeme
to lexeme, but places need not: columns start again on every line, a tab moves by eight of them, and some characters by
none. What an operation or a variable starts with has a width, though, and no character moves a place back, so the
places stand in reading order, as the text does.
-/

namespace RequestDoc

open Grammar

variable {start stop : Position} {text : List Char}

/-! ### Places in order -/

/-- The places are in reading order, each before the next one, from `start` on and before `stop`. -/
structure Ascends (start : Position) (places : List Position) (stop : Position) : Prop where
  le : start ≤ stop
  sorted : places.Pairwise (· < ·)
  within : ∀ p ∈ places, start ≤ p ∧ p < stop

namespace Ascends

theorem nil (h : start ≤ stop) : Ascends start [] stop :=
  ⟨h, .nil, fun _ hp => nomatch hp⟩

theorem single (h : start < stop) : Ascends start [start] stop where
  le := Position.le_of_lt h
  sorted := List.pairwise_singleton _ _
  within p hp := by
    obtain rfl := List.mem_singleton.mp hp
    exact ⟨Position.le_refl p, h⟩

theorem append {middle : Position} {ps qs : List Position} (h : Ascends start ps middle) (k : Ascends middle qs stop) :
    Ascends start (ps ++ qs) stop where
  le := Position.le_trans h.le k.le
  sorted := by
    refine List.pairwise_append.mpr ⟨h.sorted, k.sorted, fun p hp q hq => ?_⟩
    exact Position.lt_of_lt_of_le (h.within p hp).2 (k.within q hq).1
  within p hp := by
    rcases List.mem_append.mp hp with hp | hp
    · exact ⟨(h.within p hp).1, Position.lt_of_lt_of_le (h.within p hp).2 k.le⟩
    · exact ⟨Position.le_trans h.le (k.within p hp).1, (k.within p hp).2⟩

end Ascends

/-- Every token starts with a character that has a width. -/
theorem Token.text_eq_cons (t : Token) : ∃ x xs, t.text.toList = x :: xs ∧ x ≠ '\r' ∧ x ≠ '\uFEFF' := by
  cases t <;> exact ⟨_, _, rfl, by decide, by decide⟩

theorem lt_advance_punctuation {t : Token} (ht : Punctuation t text) (start : Position) (more : List Char) :
    start < start.advance (text ++ more) := by
  obtain ⟨w, -, rfl⟩ := ht
  obtain ⟨x, xs, hx, hr, hmark⟩ := t.text_eq_cons
  rw [hx]
  exact Position.lt_advance_cons start hr hmark _

/-! ### Marks -/

/-- A query starts the text: a brace, or the keyword. -/
def QueryStarts (text : List Char) : Prop :=
  text.head? = some '{' ∨ KeywordStarts .query text

/-- A variable of the name starts the text: a dollar sign, and the name behind it and blanks. -/
def VariableStarts (name : VariableName) (text : List Char) : Prop :=
  ∃ w rest, Blanks w ∧ IsName name.text.toList ∧ NameEnds rest ∧ text = '$' :: (w ++ name.text.toList ++ rest)

/-- A place, and what starts there. -/
structure Mark where
  place : Position
  Starts : List Char → Prop

/-- The mark of a variable. -/
def Variable.mark (x : Variable) : Mark :=
  ⟨x.position, VariableStarts x.name⟩

/-- The mark of an operation and those of its variables, in order. -/
def Operation.marks (op : Operation) : List Mark :=
  ⟨op.position, QueryStarts⟩ :: op.declared.map Variable.mark

/-- The places of the operations of a document, each followed by those of its variables. -/
def Document.places (doc : Document) : List Position :=
  doc.operations.flatMap fun op => op.position :: op.declared.map Variable.position

/-- In a text that starts at a place, another place is reached, and the text goes on there as told. -/
def Reached (start : Position) (text : List Char) (m : Mark) : Prop :=
  ∃ front back, text = front ++ back ∧ m.place = start.advance front ∧ m.Starts back

theorem Reached.here {m : Mark} (hplace : m.place = start) (h : m.Starts text) : Reached start text m :=
  ⟨[], text, rfl, hplace, h⟩

theorem Reached.behind {m : Mark} {front : List Char} (h : Reached (start.advance front) text m) :
    Reached start (front ++ text) m := by
  obtain ⟨middle, back, rfl, hplace, hstarts⟩ := h
  exact ⟨front ++ middle, back, (List.append_assoc ..).symm, by rw [hplace, Position.advance_append], hstarts⟩

/-- In a text that starts at a place the marks stand in order, whatever follows the text. -/
structure Marked (start : Position) (text : List Char) (marks : List Mark) : Prop where
  ascends : Ascends start (marks.map Mark.place) (start.advance text)
  reached : ∀ rest, ∀ m ∈ marks, Reached start (text ++ rest) m

namespace Marked

theorem nil (start : Position) (text : List Char) : Marked start text [] :=
  ⟨.nil (Position.le_advance start text), fun _ _ hm => nomatch hm⟩

theorem append {more : List Char} {ms ns : List Mark} (h : Marked start text ms)
    (k : Marked (start.advance text) more ns) : Marked start (text ++ more) (ms ++ ns) where
  ascends := by
    rw [List.map_append, Position.advance_append]
    exact h.ascends.append k.ascends
  reached rest m hm := by
    rw [List.append_assoc]
    rcases List.mem_append.mp hm with hm | hm
    · exact h.reached (more ++ rest) m hm
    · exact (k.reached rest m hm).behind

/-- A mark at the start of a text that moves the place. -/
theorem single {m : Mark} (hplace : m.place = start) (hlt : start < start.advance text)
    (h : ∀ rest, m.Starts (text ++ rest)) : Marked start text [m] where
  ascends := by
    rw [List.map_singleton, hplace]
    exact .single hlt
  reached rest n hn := by
    obtain rfl := List.mem_singleton.mp hn
    exact .here hplace (h rest)

end Marked

/-! ### The grammar leaves marks in order -/

theorem marked_declaration {x : Variable} (h : Declaration start text x) : Marked start text [x.mark] := by
  obtain ⟨hdollar, ⟨hname, v, hv, rfl⟩, hcolon, -, -⟩ := h
  refine .single rfl ?_ fun rest => ?_
  · simp only [List.append_assoc]
    exact lt_advance_punctuation hdollar start _
  · obtain ⟨w, hw, rfl⟩ := hdollar
    simp only [List.append_assoc]
    exact ⟨w, _, hw, hname, (apart_punctuation rfl hcolon _).nameEnds hv, by rw [List.append_assoc]; rfl⟩

theorem marked_declarations {xs : List Variable} (h : Declarations start text xs) :
    Marked start text (xs.map Variable.mark) := by
  induction h with
  | none => exact .nil _ _
  | one hx => exact marked_declaration hx
  | more hx _ _ ih => exact ((marked_declaration hx).append (.nil _ _)).append ih

theorem marked_parameters {xs : List Variable} (h : Parameters start text xs) :
    Marked start text (xs.map Variable.mark) := by
  cases h with
  | none => exact .nil _ _
  | @some _ _ right _ _ hinner _ =>
    have hxs := ((Marked.nil _ _).append (marked_declarations hinner)).append (.nil _ right)
    rwa [List.nil_append, List.append_nil] at hxs

theorem marked_query {op : Operation} (h : Query start text op) : Marked start text op.marks := by
  cases h with
  | shorthand hleft _ _ =>
    refine .single rfl ?_ fun rest => ?_
    · rw [List.append_assoc]
      exact lt_advance_punctuation hleft start _
    · simp only [List.append_assoc]
      exact Or.inl (head?_punctuation hleft _)
  | @declared keyword nameText parameters brace _ xs hkeyword hne _ hparameters _ =>
    have hquery : Marked start (keyword ++ nameText) [⟨start, QueryStarts⟩] := by
      refine .single rfl (lt_advance_punctuation hkeyword start _) fun rest => ?_
      obtain ⟨w, hw, hblank, rfl⟩ := Rule.blanks_of_keyword hkeyword hne
      exact Or.inr ⟨w ++ (nameText ++ rest), by simp only [List.append_assoc], nameEnds_blank hw hblank _⟩
    have hmarks := (hquery.append (marked_parameters hparameters)).append (.nil _ brace)
    rwa [List.append_nil] at hmarks

/-- The marks of definitions stand in the text that the definitions take up, in front of what follows them. -/
theorem marked_definitions {ds : List Definition} {rest : List Char} (h : Definitions start text ds rest) :
    ∃ defs, text = defs ++ rest ∧ Marked start defs ((ds.filterMap Definition.operation?).flatMap Operation.marks) := by
  induction h with
  | none => exact ⟨[], rfl, .nil _ _⟩
  | query hop _ ih =>
    obtain ⟨defs, rfl, hmarks⟩ := ih
    exact ⟨_, (List.append_assoc ..).symm, (marked_query hop).append hmarks⟩
  | mutation _ _ _ ih =>
    obtain ⟨defs, rfl, hmarks⟩ := ih
    exact ⟨_, (List.append_assoc ..).symm, (Marked.nil _ _).append hmarks⟩

/-! ### Whole texts -/

/-- The place is that of an offset of the text, and the text goes on there as told. -/
def StandsAt (text : String) (place : Position) (Starts : List Char → Prop) : Prop :=
  ∃ offset after, Located text offset place ∧ slice? text offset text.utf8ByteSize = some after ∧ Starts after.toList

theorem Reached.standsAt {text : String} {before rest : List Char} {m : Mark} (htext : text.toList = before ++ rest)
    (h : Reached (Position.first.advance before) rest m) : StandsAt text m.place m.Starts := by
  obtain ⟨front, back, hsplit, hplace, hstarts⟩ := h.behind
  rw [hsplit] at htext
  have hsize : text.utf8ByteSize = byteSize front + byteSize back := by
    rw [← byteSize_toList, htext, byteSize_append]
  have hwhole : text.toList = front ++ back ++ [] := by rw [htext, List.append_nil]
  have hslice := slice?_of_append hwhole
  rw [← hsize] at hslice
  refine ⟨byteSize front, String.ofList back, located_iff.mpr ⟨front, back, htext, rfl, hplace⟩, hslice, ?_⟩
  rwa [String.toList_ofList]

namespace Document

variable {limits : Limits} {text : String} {doc : Document}

theorem places_eq (doc : Document) : doc.places = (doc.operations.flatMap Operation.marks).map Mark.place := by
  rw [places, List.map_flatMap]
  congr 1
  funext op
  simp [Operation.marks, Variable.mark]

/-- The marks of a document that is parsed stand in its text, behind the blanks in front of it. -/
theorem marked_of_parse (h : Document.parse limits text = .ok doc) :
    ∃ before defs rest, text.toList = before ++ (defs ++ rest) ∧
      Marked (Position.first.advance before) defs (doc.operations.flatMap Operation.marks) := by
  have hsize := Rule.size_of_result_eq_ok ((parse_eq_result limits text).symm.trans h)
  obtain ⟨ds, d, hcollect, rfl⟩ := (parseBy_eq_ok_iff hsize).mp h
  obtain ⟨w, -, hentry⟩ := Cursor.reads_entry limits text
  have hdefs := (Rule.definitions_of_run (Rule.collect_eq_ok_iff.mp hcollect).1 (Cursor.flush_entry limits text)).1
  rw [hentry.position] at hdefs
  obtain ⟨defs, hrest, hmarks⟩ := marked_definitions hdefs
  exact ⟨w, defs, d.rest, hrest ▸ hentry.rest, hmarks⟩

/-- The places in a document ascend, and at each of them its query or its variable starts in the text. -/
theorem places_ascend (h : Document.parse limits text = .ok doc) :
    doc.places.Pairwise (· < ·) ∧
      ∀ op ∈ doc.operations, StandsAt text op.position QueryStarts ∧
        ∀ x ∈ op.declared, StandsAt text x.position (VariableStarts x.name) := by
  obtain ⟨before, defs, rest, htext, hmarks⟩ := marked_of_parse h
  have hstands : ∀ op ∈ doc.operations, ∀ m ∈ op.marks, StandsAt text m.place m.Starts := fun op hop m hm =>
    (hmarks.reached rest m (List.mem_flatMap.mpr ⟨op, hop, hm⟩)).standsAt htext
  refine ⟨doc.places_eq ▸ hmarks.ascends.sorted, fun op hop => ⟨?_, fun x hx => ?_⟩⟩
  · exact hstands op hop _ List.mem_cons_self
  · exact hstands op hop x.mark (List.mem_cons_of_mem _ (List.mem_map_of_mem hx))

/-- A byte order mark, a carriage return, a tab and a newline stand between the places. -/
theorem places_ascend_narrow_characters :
    ∃ doc, Document.parse ⟨64, 8⟩ "query q($a:T=\x7b\"\uFEFF\":null\x7d,\r\t$ b:U)\n\x7b\r\x7bc\x7d" = .ok doc ∧
      doc.places = [⟨1, 1⟩, ⟨1, 9⟩, ⟨1, 32⟩, ⟨2, 2⟩] ∧ doc.places.Pairwise (· < ·) ∧
      StandsAt "query q($a:T=\x7b\"\uFEFF\":null\x7d,\r\t$ b:U)\n\x7b\r\x7bc\x7d" ⟨1, 32⟩ (VariableStarts ⟨"b"⟩) := by
  have hparse : Document.parse ⟨64, 8⟩ "query q($a:T=\x7b\"\uFEFF\":null\x7d,\r\t$ b:U)\n\x7b\r\x7bc\x7d" =
      .ok ⟨[.ofHead ⟨1, 1⟩ .query (some ⟨"q"⟩)
          [⟨⟨1, 9⟩, ⟨"a"⟩, .named ⟨"T"⟩ false, some (.object ⟨[("\uFEFF", .null)]⟩)⟩,
            ⟨⟨1, 32⟩, ⟨"b"⟩, .named ⟨"U"⟩ false, none⟩],
        .ofHead ⟨2, 2⟩ .query (some ⟨"c"⟩) []], []⟩ := by
    with_unfolding_all rfl
  obtain ⟨hsorted, hstands⟩ := places_ascend hparse
  exact ⟨_, hparse, rfl, hsorted, (hstands _ List.mem_cons_self).2 _ (List.mem_cons_of_mem _ List.mem_cons_self)⟩

end Document

end RequestDoc

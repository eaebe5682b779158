import RequestDoc.Proofs.Document.Sound
import RequestDoc.Proofs.Rule.Carries.Grammar
import RequestDoc.Proofs.Rule.Whole

/-!
Documents one behind the other. What a text defines, it defines in front of another text as well: each of its
definitions ends with a token, and only a keyword at the very end could go on into the text behind it. What is
defined in that text is defined behind the first one, only moved to its place.
-/

namespace RequestDoc

open Grammar

variable {p : Placement} {s : Strategy} {c d : Cursor}

/-! ### The seam -/

theorem Cursor.skipBlanks_of_reads {w : List Char} (h : c.Reads w d) (hw : Blanks w) : d.skipBlanks = c.skipBlanks := by
  rw [skipBlanks, skipBlanks, h.rest, List.takeWhile_append_of_pos hw, ← past_past, ← h.eq_past]

theorem Cursor.skipBlanks_of_flush (h : Flush c.rest) : c.skipBlanks = c :=
  (Reads.refl c).skipBlanks Blanks.nil h

namespace Placement

theorem skipBlanks_cursor_skipBlanks (p : Placement) (hc : c.Valid) :
    (p.cursor c.skipBlanks).skipBlanks = (p.cursor c).skipBlanks :=
  Cursor.skipBlanks_of_reads (reads_cursor hc (Cursor.reads_skipBlanks c)) (blanks_takeWhile c.rest)

end Placement

namespace Rule

/-- The last token in front of the seam is read with the blanks on both sides of the seam. -/
theorem token_before_seam {t : Token} (hc : p.Fits c) (h : token t c = .ok ((), d))
    (hk : t.isKeyword = true → NameEnds ((p.cursor c).rest.drop t.text.toList.length)) :
    token t (p.cursor c) = .ok ((), (p.cursor d).skipBlanks) := by
  obtain ⟨⟨rest, hr⟩, rfl⟩ := Lexeme.token_eq_ok (token_eq_ok.mp h)
  refine token_eq_ok.mpr (Lexeme.token_eq_ok_iff.mpr ⟨⟨⟨rest ++ p.tail, ?_⟩, ?_⟩, hk⟩)
  · show c.rest ++ p.tail = _
    rw [hr, List.append_assoc]
  · rw [p.skipBlanks_cursor_skipBlanks (hc.inner.past hr), Placement.cursor_past hc.inner hr]

theorem sealed_of_mark {t : Token} (h : token t c = .ok ((), d))
    (ht : t.text.toList.head?.any Character.continuesWord = false) : p.Sealed c.rest := by
  have hhead := Lexeme.head?_of_token (token_eq_ok.mp h)
  rw [List.head?_eq_some_head t.text_ne_nil] at hhead ht
  exact Or.inr (settled_of_head hhead ht)

theorem queryForm_before_seam (hs : s.Committed) (hc : p.Fits c) {f : QueryForm} {op : Operation}
    (h : queryForm s f c = .ok (op, d)) :
    queryForm s f (p.cursor c) = .ok (op.shift p.start, (p.cursor d).skipBlanks) := by
  cases f with
  | shorthand =>
    obtain ⟨place, c0, hplace, h⟩ := bind_eq_ok.mp h
    obtain ⟨rfl, rfl⟩ := Prod.mk.inj (Except.ok.inj hplace)
    obtain ⟨⟨⟩, c1, hopen, h⟩ := bind_eq_ok.mp h
    obtain ⟨name, c2, hname, h⟩ := bind_eq_ok.mp h
    obtain ⟨⟨⟩, c3, hclose, h⟩ := bind_eq_ok.mp h
    obtain ⟨rfl, rfl⟩ := Prod.mk.inj (Except.ok.inj h)
    obtain ⟨_, h1⟩ := (moves_token _).reads hopen
    obtain ⟨_, h2⟩ := moves_name.reads hname
    have hsealed : p.Sealed c2.rest := sealed_of_mark hclose (by decide)
    have hopen' := (carries_token (p := p) .openBrace).ok hc hopen (hsealed.of_reads h2)
    have hname' := (carries_name (p := p)).ok (hc.of_reads h1) hname hsealed
    have hclose' := token_before_seam (hc.of_reads (h1.trans h2)) hclose fun hk => nomatch hk
    exact bind_eq_ok.mpr ⟨_, _, rfl, bind_eq_ok.mpr ⟨(), _, hopen', bind_eq_ok.mpr ⟨name, _, hname',
      bind_eq_ok.mpr ⟨(), _, hclose', rfl⟩⟩⟩⟩
  | declared =>
    obtain ⟨place, c0, hplace, h⟩ := bind_eq_ok.mp h
    obtain ⟨rfl, rfl⟩ := Prod.mk.inj (Except.ok.inj hplace)
    obtain ⟨⟨⟩, c1, hquery, h⟩ := bind_eq_ok.mp h
    obtain ⟨name, c2, hname, h⟩ := bind_eq_ok.mp h
    obtain ⟨vs, c3, hvs, h⟩ := bind_eq_ok.mp h
    obtain ⟨⟨⟩, c4, hbrace, h⟩ := bind_eq_ok.mp h
    obtain ⟨rfl, rfl⟩ := Prod.mk.inj (Except.ok.inj h)
    obtain ⟨_, h1⟩ := (moves_token _).reads hquery
    obtain ⟨_, h2⟩ := moves_name.reads hname
    obtain ⟨_, h3⟩ := (moves_declarations s).maybe.reads hvs
    have hsealed : p.Sealed c3.rest := sealed_of_mark hbrace (by decide)
    have hquery' := (carries_token (p := p) .query).ok hc hquery (hsealed.of_reads (h2.trans h3))
    have hname' := (carries_name (p := p)).ok (hc.of_reads h1) hname (hsealed.of_reads h3)
    have hvs' := ((carries_declarations (p := p) hs).maybe hs).ok (hc.of_reads (h1.trans h2)) hvs hsealed
    have hbrace' := token_before_seam (hc.of_reads ((h1.trans h2).trans h3)) hbrace fun hk => nomatch hk
    refine bind_eq_ok.mpr ⟨_, _, rfl, bind_eq_ok.mpr ⟨(), _, hquery', bind_eq_ok.mpr ⟨name, _, hname',
      bind_eq_ok.mpr ⟨_, _, hvs', bind_eq_ok.mpr ⟨(), _, hbrace', ?_⟩⟩⟩⟩⟩
    cases vs <;> rfl

/-- A definition in front of the seam is read as before, if the keyword of a mutation does not go on behind it. -/
theorem definition_before_seam (hs : s.Thorough) (hc : s.Committed) (hfits : p.Fits c) {x : Definition}
    (h : definition s c = .ok (x, d))
    (hkeyword : ∀ place, x = .mutation place → d.rest = [] → c.rest = Token.mutation.text.toList → NameEnds p.tail) :
    definition s (p.cursor c) = .ok (x.shift p.start, (p.cursor d).skipBlanks) := by
  obtain ⟨rule, hm, h⟩ := choice_eq_ok h
  obtain ⟨f, -, rfl⟩ := List.mem_map.mp hm
  cases f with
  | query =>
    obtain ⟨op, c1, hop, h⟩ := bind_eq_ok.mp h
    obtain ⟨rfl, rfl⟩ := Prod.mk.inj (Except.ok.inj h)
    obtain ⟨rule, hm, hop⟩ := choice_eq_ok hop
    obtain ⟨g, -, rfl⟩ := List.mem_map.mp hm
    have hform := queryForm_before_seam hc hfits hop
    have hstarts : g.Starts (p.cursor c).rest := Classical.byContradiction fun hg => (refuses_queryForm hg).not_ok _ hform
    have hquery := query_of_form hs hstarts hform final_ok
    exact definition_of_form hs (f := .query) ⟨g, hstarts⟩ (bind_eq_ok.mpr ⟨_, _, hquery, rfl⟩) final_ok
  | mutation =>
    obtain ⟨place, c0, hplace, h⟩ := bind_eq_ok.mp h
    obtain ⟨rfl, rfl⟩ := Prod.mk.inj (Except.ok.inj hplace)
    obtain ⟨⟨⟩, c1, hword, h⟩ := bind_eq_ok.mp h
    obtain ⟨rfl, rfl⟩ := Prod.mk.inj (Except.ok.inj h)
    obtain ⟨⟨⟨rest, hr⟩, hlast⟩, hends⟩ := Lexeme.token_eq_ok_iff.mp (token_eq_ok.mp hword)
    have hword' := token_before_seam hfits hword fun _ => by
      show NameEnds ((c.rest ++ p.tail).drop _)
      rw [hr, List.drop_left] at hends
      rw [hr, List.append_assoc, List.drop_left]
      -- a keyword at the seam may go on behind it, any other one has ended
      cases rest with
      | nil =>
        refine hkeyword _ rfl ?_ (hr.trans (List.append_nil _))
        rw [hlast, Cursor.rest_skipBlanks, Cursor.rest_past hr]
        rfl
      | cons y rest => exact hends rfl
    have hform : definitionForm s .mutation (p.cursor c) = .ok (.mutation (p.cursor c).position, (p.cursor c1).skipBlanks) :=
      bind_eq_ok.mpr ⟨_, _, rfl, bind_eq_ok.mpr ⟨(), _, hword', rfl⟩⟩
    have hstarts : DefinitionForm.mutation.Starts (p.cursor c).rest :=
      Classical.byContradiction fun hg => (refuses_definitionForm hg).not_ok _ hform
    exact definition_of_form hs hstarts hform final_ok

theorem run_before_seam (hs : s.Thorough) (hc : s.Committed) {ds : List Definition} (hfits : p.Fits c) (hflush : Flush c.rest)
    (h : Run (definition s) c ds d) (hend : d.rest = [])
    (hkeyword : ∀ place, ds.getLast? = some (.mutation place) → Token.mutation.text.toList <:+ c.rest → NameEnds p.tail) :
    Run (definition s) (p.cursor c).skipBlanks (ds.map (Definition.shift · p.start)) (p.cursor d).skipBlanks := by
  induction h with
  | nil => exact .nil _
  | @cons c e d x as hx hlt hrest ih =>
    obtain ⟨text, hne, hreads, heflush, -⟩ := definition_eq_ok hx
    have hcne : c.rest ≠ [] := by
      rw [hreads.rest]
      exact List.append_ne_nil_of_left_ne_nil hne _
    have hskip : (p.cursor c).skipBlanks = p.cursor c := by
      refine Cursor.skipBlanks_of_flush fun y hy => hflush y ?_
      have hy : y ∈ (c.rest ++ p.tail).head? := hy
      rwa [List.head?_append, List.head?_eq_some_head hcne, Option.some_or, ← List.head?_eq_some_head hcne] at hy
    -- every definition reads something, so only the last one can end at the seam
    have hlast : e.rest = [] → as = [] := by
      intro he
      cases hrest with
      | nil => rfl
      | cons hy _ _ =>
        obtain ⟨more, hmore, hreads', -⟩ := definition_eq_ok hy
        have hnil := hreads'.rest.symm.trans he
        exact absurd (List.append_eq_nil_iff.mp hnil).1 hmore
    have hx' := definition_before_seam hs hc hfits hx fun place hmutation he hrest => by
      refine hkeyword place ?_ (hrest ▸ List.suffix_refl _)
      rw [hlast he, hmutation]
      rfl
    have hmore := ih (hfits.of_reads hreads) heflush hend fun place hgetLast hsuffix => by
      refine hkeyword place ?_ (hsuffix.trans ⟨text, hreads.rest.symm⟩)
      rw [List.getLast?_cons, hgetLast]
      rfl
    obtain ⟨text', hne', hreads', -⟩ := definition_eq_ok hx'
    rw [hskip]
    exact .cons hx' (hreads'.left_lt hfits.outer hne') hmore

end Rule

/-! ### Whole texts -/

/-- The last definition of a text is a mutation, and its keyword ends the text. -/
def Document.EndsInMutation (text : String) (ds : List Definition) : Prop :=
  (∃ place, ds.getLast? = some (.mutation place)) ∧ Token.mutation.text.toList <:+ text.toList

namespace Placement

variable {limits : Limits} {first second : String}

/-- The first text in front of the second one. -/
def front (first second : String) : Placement :=
  ⟨first ++ second, 0, .first, second.toList, 0⟩

/-- The second text behind the first one. -/
def behind (first second : String) : Placement :=
  ⟨first ++ second, first.utf8ByteSize, Position.first.advance first.toList, [], 0⟩

theorem cursor_front_start (first second : String) (depth : Nat) :
    (front first second).cursor (.start first depth) = .start (first ++ second) depth := by
  simp [cursor, Cursor.start, front, Position.shift_first_right]

theorem fits_front_entry (limits : Limits) (first second : String) :
    (front first second).Fits (Cursor.entry limits first) := by
  obtain ⟨w, -, hr⟩ := Cursor.reads_entry limits first
  have hstart : (front first second).Fits (.start first limits.depth) :=
    ⟨Cursor.valid_start .., cursor_front_start first second limits.depth ▸ Cursor.valid_start ..⟩
  exact hstart.of_reads hr

/-- The end of the first text is the start of the second one. -/
theorem cursor_front_end {read : List Char} (hr : (Cursor.entry limits first).Reads read c) (hend : c.rest = []) :
    (front first second).cursor c = (behind first second).cursor (.start second limits.depth) := by
  obtain ⟨w, -, hentry⟩ := Cursor.reads_entry limits first
  have hall := hentry.trans hr
  have hwhole : w ++ read = first.toList := by
    have hrest := hall.rest
    rw [hend, List.append_nil] at hrest
    exact hrest.symm
  rw [hall.eq_past, hwhole]
  simp [cursor, Cursor.past, Cursor.start, front, behind, Position.shift_first_right]

end Placement

namespace Rule

theorem collect_of_run {α : Type} {retry : Retry} {rule : Rule α} {as : List α} (h : Run rule c as d) :
    collect retry rule c = (as ++ (collect retry rule d).1, (collect retry rule d).2) := by
  cases hcol : collect retry rule d with
  | mk bs out =>
    cases out with
    | ok e =>
      obtain ⟨hrun, hstops⟩ := collect_eq_ok_iff.mp hcol
      exact collect_eq_ok_iff.mpr ⟨h.append hrun, hstops⟩
    | error err =>
      obtain ⟨e, hrun, hr, hretry⟩ := collect_eq_error.mp hcol
      exact collect_eq_error.mpr ⟨e, h.append hrun, hr, hretry⟩

end Rule

namespace Document

variable {limits : Limits} {first second : String} {ds : List Definition}

/-- Definitions that take up the first text are read from it in front of the second one. -/
theorem run_front (hsize : first.utf8ByteSize ≤ limits.textSize) (hfirst : read .standard limits first = (ds, .ok c))
    (hend : c.rest = [])
    (hseam : ¬(EndsInMutation first ds ∧ ∃ x ∈ second.toList.head?, Character.continuesName x = true)) :
    Rule.Run (Rule.definition .standard) (Cursor.entry limits (first ++ second)) ds
      ((Placement.behind first second).cursor (Cursor.entry limits second)) := by
  rw [read_eq_collect hsize] at hfirst
  obtain ⟨hrun, -⟩ := Rule.collect_eq_ok_iff.mp hfirst
  obtain ⟨text, hreads⟩ := (Rule.moves_definition _).run hrun
  obtain ⟨w, -, hentry⟩ := Cursor.reads_entry limits first
  have hmoved := Rule.run_before_seam Strategy.thorough_standard Strategy.committed_standard
    (Placement.fits_front_entry limits first second) (Cursor.flush_entry limits first) hrun hend
    fun place hlast hsuffix x hx => by
      cases hname : Character.continuesName x with
      | false => rfl
      | true => exact absurd ⟨⟨⟨place, hlast⟩, hsuffix.trans ⟨w, hentry.rest.symm⟩⟩, x, hx, hname⟩ hseam
  have hsame : ds.map (Definition.shift · (Placement.front first second).start) = ds := by
    rw [show (Definition.shift · (Placement.front first second).start) = id from funext Definition.shift_first, List.map_id]
  have hstart : ((Placement.front first second).cursor (Cursor.entry limits first)).skipBlanks =
      Cursor.entry limits (first ++ second) := by
    rw [Cursor.entry, Placement.skipBlanks_cursor_skipBlanks _ (Cursor.valid_start ..), Placement.cursor_front_start]
    rfl
  have hseamCursor : ((Placement.front first second).cursor c).skipBlanks =
      (Placement.behind first second).cursor (Cursor.entry limits second) := by
    rw [Placement.cursor_front_end hreads hend, Placement.cursor_skipBlanks (Cursor.valid_start ..) (Or.inl rfl)]
    rfl
  rwa [hsame, hstart, hseamCursor] at hmoved

theorem fits_behind (hsize : first.utf8ByteSize ≤ limits.textSize) (hfirst : read .standard limits first = (ds, .ok c))
    (hend : c.rest = []) : (Placement.behind first second).Fits (Cursor.entry limits second) := by
  rw [read_eq_collect hsize] at hfirst
  obtain ⟨text, hreads⟩ := (Rule.moves_definition _).run (Rule.collect_eq_ok_iff.mp hfirst).1
  have houter := ((Placement.fits_front_entry limits first second).of_reads hreads).outer
  rw [Placement.cursor_front_end hreads hend] at houter
  obtain ⟨w, -, hentry⟩ := Cursor.reads_entry limits second
  exact Placement.Fits.of_reads ⟨Cursor.valid_start .., houter⟩ hentry

/-- What is read from two texts, of which the first one is read up to its end. -/
theorem read_append (hsize : first.utf8ByteSize + second.utf8ByteSize ≤ limits.textSize)
    (hfirst : read .standard limits first = (ds, .ok c)) (hend : c.rest = [])
    (hseam : ¬(EndsInMutation first ds ∧ ∃ x ∈ second.toList.head?, Character.continuesName x = true)) :
    (∀ more d, read .standard limits second = (more, .ok d) → read .standard limits (first ++ second) =
      (ds ++ more.map (·.shift (Position.first.advance first.toList)), .ok ((Placement.behind first second).cursor d))) ∧
    (∀ more err, read .standard limits second = (more, .error err) → read .standard limits (first ++ second) =
      (ds ++ more.map (·.shift (Position.first.advance first.toList)),
        .error (err.shift first.utf8ByteSize (Position.first.advance first.toList)))) := by
  have hcommitted := Strategy.committed_standard
  have hrun := run_front (by omega) hfirst hend hseam
  have hfits : (Placement.behind first second).Fits (Cursor.entry limits second) := fits_behind (by omega) hfirst hend
  have hcarries := Rule.carries_definition (p := .behind first second) hcommitted
  have hsecondSize : second.utf8ByteSize ≤ limits.textSize := by omega
  have hbothSize : (first ++ second).utf8ByteSize ≤ limits.textSize := by rwa [String.utf8ByteSize_append]
  rw [read_eq_collect hsecondSize, read_eq_collect hbothSize, Rule.collect_of_run hrun]
  constructor
  · intro more d hsecond
    rw [hcarries.collectOk hcommitted hfits hsecond (Or.inl rfl)]
    rfl
  · intro more err hsecond
    rw [hcarries.collectError hcommitted hfits hsecond ⟨fun _ _ => Or.inl rfl, fun _ => rfl⟩]
    rfl

theorem operations_shift (ds : List Definition) (place : Position) :
    (ds.map (Definition.shift · place)).filterMap Definition.operation? =
      (ds.filterMap Definition.operation?).map (Operation.shift · place) := by
  rw [List.filterMap_map, List.map_filterMap]
  congr 1
  funext x
  cases x <;> rfl

/-- Behind a text that is definitions up to its end, a second text is parsed as it is by itself, with its places and
its error moved behind the first one. The keyword of a mutation at the end of the first text must not go on in the
second one. -/
theorem parse_append (hsize : first.utf8ByteSize + second.utf8ByteSize ≤ limits.textSize)
    (hfirst : read .standard limits first = (ds, .ok c)) (hend : c.rest = [])
    (hseam : ¬(EndsInMutation first ds ∧ ∃ x ∈ second.toList.head?, Character.continuesName x = true)) :
    ((∃ doc, parse limits (first ++ second) = .ok doc) ↔ ∃ doc, parse limits second = .ok doc) ∧
    (∀ doc, parse limits second = .ok doc → parse limits (first ++ second) =
      .ok (.ofOperations ((ofDefinitions ds).operations ++
        doc.operations.map (·.shift (Position.first.advance first.toList))))) ∧
    (∀ err, parse limits second = .error err → parse limits (first ++ second) =
      .error (err.shift first.utf8ByteSize (Position.first.advance first.toList))) := by
  unfold parse parseBy
  cases hsecond : read .standard limits second with
  | mk more out =>
    obtain ⟨hok, herror⟩ := read_append hsize hfirst hend hseam
    cases out with
    | ok d =>
      rw [hok _ d hsecond]
      refine ⟨iff_of_true ⟨_, rfl⟩ ⟨_, rfl⟩, fun doc h => ?_, fun _ h => (nomatch h)⟩
      obtain rfl := Except.ok.inj h
      refine congrArg Except.ok (congrArg ofOperations ?_)
      rw [List.filterMap_append, operations_shift]
      rfl
    | error err =>
      rw [herror _ err hsecond]
      refine ⟨iff_of_false ?_ ?_, fun _ h => (nomatch h), fun err' h => ?_⟩
      · exact fun ⟨_, h⟩ => nomatch h
      · exact fun ⟨_, h⟩ => nomatch h
      · obtain rfl := Except.error.inj h
        rfl

/-- One query in front of another one, and in front of one that breaks off. -/
theorem parse_query_append :
    ∃ c, read .standard ⟨64, 64⟩ "{a}\n" = ([.query (.ofHead ⟨1, 1⟩ .query (some ⟨"a"⟩) [])], .ok c) ∧ c.rest = [] ∧
      Document.parse ⟨64, 64⟩ "{b}" = .ok ⟨[.ofHead ⟨1, 1⟩ .query (some ⟨"b"⟩) []], []⟩ ∧
      Document.parse ⟨64, 64⟩ ("{a}\n" ++ "{b}") =
        .ok ⟨[.ofHead ⟨1, 1⟩ .query (some ⟨"a"⟩) [], .ofHead ⟨2, 1⟩ .query (some ⟨"b"⟩) []], []⟩ ∧
      Document.parse ⟨64, 64⟩ "{1}" = .error (.mismatch 1 ⟨1, 2⟩ (.one "identifier")) ∧
      Document.parse ⟨64, 64⟩ ("{a}\n" ++ "{1}") = .error (.mismatch 5 ⟨2, 2⟩ (.one "identifier")) := by
  have hfirst : ∃ c, read .standard ⟨64, 64⟩ "{a}\n" =
      ([.query (.ofHead ⟨1, 1⟩ .query (some ⟨"a"⟩) [])], .ok c) ∧ c.rest = [] :=
    ⟨_, by with_unfolding_all rfl, by with_unfolding_all rfl⟩
  obtain ⟨c, hfirst, hend⟩ := hfirst
  have hseam (second : String) : ¬(EndsInMutation "{a}\n" [.query (.ofHead ⟨1, 1⟩ .query (some ⟨"a"⟩) [])] ∧
      ∃ x ∈ second.toList.head?, Character.continuesName x = true) := by
    rintro ⟨⟨⟨place, hlast⟩, -⟩, -⟩
    cases hlast
  have hok : Document.parse ⟨64, 64⟩ "{b}" = .ok ⟨[.ofHead ⟨1, 1⟩ .query (some ⟨"b"⟩) []], []⟩ := by
    with_unfolding_all rfl
  have herror : Document.parse ⟨64, 64⟩ "{1}" = .error (.mismatch 1 ⟨1, 2⟩ (.one "identifier")) := by
    with_unfolding_all rfl
  exact ⟨c, hfirst, hend, hok, (parse_append (by decide) hfirst hend (hseam _)).2.1 _ hok, herror,
    (parse_append (by decide) hfirst hend (hseam _)).2.2 _ herror⟩

end Document

end RequestDoc

import RequestDoc.Proofs.Document.Exact
import RequestDoc.Proofs.Literal.Exact
import RequestDoc.Proofs.Parse.Depth
import RequestDoc.Proofs.Value.RoundTrip

/-!
Parsing what was parsed and printed. Types and values that come of a text within a limit are printed within the same
limit, so their printed texts are parsed again, unless an infinite number stands in a value: no literal is printed
for it, so the text is refused, and not because of a limit.
-/

namespace RequestDoc

open Grammar Nesting

variable {limits : Limits} {text : String} {depth size : Nat} {v : Value} {t : TypeRef}

/-- The printed type is parsed as the type under a limit of depth, where its size is allowed. -/
def TypeRef.ReadsBack (depth : Nat) (t : TypeRef) : Prop :=
  ∀ size, t.text.utf8ByteSize ≤ size → TypeRef.parse ⟨size, depth⟩ t.text = .ok t

/-- No string and no missing number stands in the value. Under a limit of depth, where its size is allowed, the
printed value is parsed as the value if no infinite number stands in it, and is a mismatch otherwise. -/
structure Value.ReadsBack (depth : Nat) (v : Value) : Prop where
  noString : ∀ s, ¬v.Contains (.string s)
  noNaN : ∀ x, v.Contains (.number x) → x.isNaN = false
  finite : (∀ x, v.Contains (.number x) → x.isInfinite = false) →
    ∀ size, v.text.utf8ByteSize ≤ size → Value.parse ⟨size, depth⟩ v.text = .ok v
  infinite : (∃ x, v.Contains (.number x) ∧ x.isInfinite = true) →
    ∀ size, v.text.utf8ByteSize ≤ size → ∃ offset place expected,
      Value.parse ⟨size, depth⟩ v.text = .error (.mismatch offset place expected)

/-! ### What is written within a limit -/

theorem TypeRef.readsBack_of_reference (hname : IsName t.baseName.text.toList) (hdepth : t.depth ≤ depth) :
    t.ReadsBack depth := by
  intro size hsize
  have hwithin : t.text.utf8ByteSize ≤ (Limits.mk size depth).textSize := hsize
  have hchars : t.text.toList = [] ++ t.chars := String.toList_ofList
  exact (parse_eq_ok_iff_reference hwithin t).mpr ⟨[], t.chars, Blanks.nil, hchars, reference_chars hname, hdepth⟩

/-- A printed value that nests within the limit is refused for no limit. -/
theorem Value.parse_text_ne_tooDeep (hdepth : v.nesting ≤ depth) (limit : Nat) (place : Position) :
    Value.parse ⟨size, depth⟩ v.text ≠ .error (.tooDeep limit place) := by
  intro h
  obtain ⟨front, -, -, -, hover, -⟩ := Rule.overruns_of_parse (Rule.nests_literal .standard) h
  have hchars : v.text.toList = v.chars := String.toList_ofList
  have hnone : State.initial.overrun? depth v.text.toList = none := by
    have hdeepest : State.initial.deepest v.chars = v.nesting := v.closed_chars.deepest_eq
    rw [hchars, State.overrun?_eq_none_iff (Nat.zero_le depth), hdeepest]
    exact hdepth
  cases hover.symm.trans hnone

theorem Value.Written.readsBack (h : v.Written depth) : v.ReadsBack depth where
  noString := h.noString
  noNaN := h.noNaN
  finite hfinite size hsize := by
    have hwithin : v.text.utf8ByteSize ≤ (Limits.mk size depth).textSize := hsize
    have hliteral : v.IsLiteral :=
      ⟨h.noString, fun x hx => Binary64.isFinite_iff.mpr ⟨hfinite x hx, h.noNaN x hx⟩⟩
    obtain ⟨hok, hsame⟩ := parse_text_exact h.distinctKeys hwithin h.nesting
    obtain ⟨u, hu⟩ := hok.mpr hliteral
    rw [hu, hsame u hu]
  infinite := by
    rintro ⟨x, hx, hinfinite⟩ size hsize
    have hwithin : v.text.utf8ByteSize ≤ (Limits.mk size depth).textSize := hsize
    have hrefused := (parse_text_exact h.distinctKeys hwithin h.nesting).1
    cases hparse : Value.parse ⟨size, depth⟩ v.text with
    | ok u =>
      have hfinite := (hrefused.mp ⟨u, hparse⟩).finite x hx
      rw [(Binary64.isFinite_iff.mp hfinite).1] at hinfinite
      cases hinfinite
    | error err =>
      cases err with
      | textTooLarge limit bytes => cases (Rule.moves_literal .standard).meets_parse hwithin hparse
      | tooDeep limit place => exact absurd hparse (parse_text_ne_tooDeep h.nesting limit place)
      | mismatch offset place expected => exact ⟨offset, place, expected, rfl⟩

/-! ### What is parsed within a limit -/

theorem TypeRef.readsBack_of_parse (h : TypeRef.parse limits text = .ok t) : t.ReadsBack limits.depth := by
  obtain ⟨w, s, -, -, hreference, hdepth⟩ := (parse_eq_ok_iff_reference (Rule.size_of_parse_eq_ok h) t).mp h
  exact readsBack_of_reference hreference.1 hdepth

theorem Value.readsBack_of_parse (h : Value.parse limits text = .ok v) : v.ReadsBack limits.depth := by
  obtain ⟨w, s, -, -, hliteral, n, hclosed, hdepth⟩ := (parse_eq_ok_iff_within (Rule.size_of_parse_eq_ok h) v).mp h
  exact ((written_of_literal hliteral hclosed).mono hdepth).readsBack

/-- The variables that a run of the rule for definitions reads are written within the limit. -/
theorem Rule.written_of_run {s : Strategy} {c d : Cursor} {ds : List Definition} (h : Run (definition s) c ds d)
    (hle : c.depth ≤ c.depthLimit) {op : Operation} (hop : .query op ∈ ds) :
    ∀ x ∈ op.declared, x.Written c.depthLimit := by
  induction h with
  | nil => cases hop
  | @cons c d _ first _ hread _ _ ih =>
    obtain ⟨text, -, hr, -, -⟩ := definition_eq_ok hread
    rw [hr.depth, hr.depthLimit] at ih
    rcases List.mem_cons.mp hop with rfl | hop
    · obtain ⟨rule, hm, hform⟩ := choice_eq_ok hread
      obtain ⟨f, -, rfl⟩ := List.mem_map.mp hm
      cases f with
      | query =>
        obtain ⟨op', e, hquery, hpure⟩ := bind_eq_ok.mp hform
        obtain ⟨⟨⟩, rfl⟩ := Prod.mk.inj (Except.ok.inj hpure)
        obtain ⟨_, n, hwithin, hdepth, -⟩ := query_eq_ok hquery
        exact fun x hx => (hwithin.written x hx).mono (by omega)
      | mutation =>
        obtain ⟨place, e, -, hform⟩ := bind_eq_ok.mp hform
        obtain ⟨-, f, -, hpure⟩ := bind_eq_ok.mp hform
        cases hpure
    · exact ih hle hop

theorem Document.written_of_parse {doc : Document} (h : Document.parse limits text = .ok doc) {op : Operation}
    (hop : op ∈ doc.operations) : ∀ x ∈ op.declared, x.Written limits.depth := by
  have hsize := Rule.size_of_result_eq_ok ((parse_eq_result limits text).symm.trans h)
  obtain ⟨ds, d, hcollect, rfl⟩ := (parseBy_eq_ok_iff hsize).mp h
  obtain ⟨x, hx, hoperation⟩ := List.mem_filterMap.mp hop
  cases x with
  | mutation => cases hoperation
  | query op' =>
    obtain rfl := Option.some.inj hoperation
    exact Rule.written_of_run (Rule.collect_eq_ok_iff.mp hcollect).1 (Nat.zero_le _) hx

/-- What was parsed under a limit of depth reads back under the same limit, and so do the types and the defaults of
the variables of a document. -/
theorem parsed_readsBack (limits : Limits) (text : String) :
    (∀ doc, Document.parse limits text = .ok doc → ∀ op ∈ doc.operations, ∀ x ∈ op.declared,
      x.type.ReadsBack limits.depth ∧ ∀ v ∈ x.defaultValue, v.ReadsBack limits.depth) ∧
    (∀ v, Value.parse limits text = .ok v → v.ReadsBack limits.depth) ∧
    (∀ t, TypeRef.parse limits text = .ok t → t.ReadsBack limits.depth) := by
  refine ⟨fun doc h op hop x hx => ?_, fun v => Value.readsBack_of_parse, fun t => TypeRef.readsBack_of_parse⟩
  have hwritten := Document.written_of_parse h hop x hx
  exact ⟨TypeRef.readsBack_of_reference hwritten.name hwritten.type, fun v hv => (hwritten.value v hv).readsBack⟩

/-- A number too great for its format is parsed as an infinite one, and that is not parsed again. -/
theorem readsBack_infinite_default :
    ∃ v, Document.parse ⟨64, 1⟩ "query q($x:[T]=[1e999])\x7b" =
        .ok ⟨[.ofHead ⟨1, 1⟩ .query (some ⟨"q"⟩) [⟨⟨1, 9⟩, ⟨"x"⟩, .list (.named ⟨"T"⟩ false) false, some v⟩]], []⟩ ∧
      (TypeRef.list (.named ⟨"T"⟩ false) false).ReadsBack 1 ∧
      ∃ offset place expected, Value.parse ⟨64, 1⟩ v.text = .error (.mismatch offset place expected) := by
  have hparse : Document.parse ⟨64, 1⟩ "query q($x:[T]=[1e999])\x7b" = .ok ⟨[.ofHead ⟨1, 1⟩ .query (some ⟨"q"⟩)
      [⟨⟨1, 9⟩, ⟨"x"⟩, .list (.named ⟨"T"⟩ false) false,
        some (.list [.number ⟨false, Binary64.infinity, Binary64.infinity_lt⟩])⟩]], []⟩ := by
    with_unfolding_all rfl
  obtain ⟨htype, hvalue⟩ := (parsed_readsBack _ _).1 _ hparse _ List.mem_cons_self _ List.mem_cons_self
  have hinfinite := (hvalue _ rfl).infinite ⟨_, .item List.mem_cons_self (.self _), by decide⟩
  exact ⟨_, hparse, htype, hinfinite 64 (by decide)⟩

end RequestDoc

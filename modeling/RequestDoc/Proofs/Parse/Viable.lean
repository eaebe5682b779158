import RequestDoc.Proofs.Document.Viable
import RequestDoc.Proofs.Literal.Exact

/-!
Syntax errors at the end of a viable prefix. Up to the offset of a mismatch nothing was wrong in a text: what stands
there can be gone on with so that the whole is parsed under the same limit of depth. Of a document all definitions that
were read in front of the error stay as they were, and one query follows them.
-/

namespace RequestDoc

open Grammar

variable {α : Type} {limits : Limits} {text : String} {c d : Cursor} {offset : Nat} {place : Position} {expected : Expectation}
  {Whole : List Char → Prop} {Accepts : Limits → String → Prop}

/-- The text up to the offset can be gone on with to a text that is accepted under the limit of depth, if its size is
allowed. -/
def ViablePrefix (Accepts : Limits → String → Prop) (depth : Nat) (text : String) (offset : Nat) : Prop :=
  ∃ before after rest, text = before ++ after ∧ before.utf8ByteSize = offset ∧
    ∀ size, (before ++ rest).utf8ByteSize ≤ size → Accepts ⟨size, depth⟩ (before ++ rest)

/-- What was read from the start of a text is a viable prefix if it can be gone on with. -/
theorem viablePrefix_of_reads (rest : List Char) {front : List Char} (hr : (Cursor.start text limits.depth).Reads front d)
    (haccepts : ∀ {size : Nat} {whole : String}, whole.utf8ByteSize ≤ size → whole.toList = front ++ rest →
      Accepts ⟨size, limits.depth⟩ whole) : ViablePrefix Accepts limits.depth text d.offset := by
  have htext : text.toList = front ++ d.rest := hr.rest
  refine ⟨String.ofList front, String.ofList d.rest, String.ofList rest, ?_, ?_, fun size hsize => haccepts hsize (by simp)⟩
  · rw [← String.ofList_append, ← htext, String.ofList_toList]
  · rw [hr.offset, ← byteSize_toList, String.toList_ofList]
    exact (Nat.zero_add _).symm

namespace Rule

variable {rule : Rule α}

theorem size_of_mismatch (h : rule.result limits text = .error (.mismatch offset place expected)) :
    text.utf8ByteSize ≤ limits.textSize :=
  size_of_result fun _ _ h' => nomatch h.symm.trans h'

/-- Behind what a rule reads the end of the text is missing, so what it reads is whole. -/
theorem viable_toEnd (hm : rule.Moves) (h : rule.Viable c Whole)
    (hok : ∀ {a d}, rule c = .ok (a, d) → ∃ text, Whole text ∧ c.Reads text d ∧ Flush d.rest) :
    rule.toEnd.Viable c Whole := by
  refine h.bind hm fun {a d read} hr hreads => Viable.bind ?_ moves_endOfInput fun _ _ => viable_pure _
  obtain ⟨read', hwhole, hreads', hflush⟩ := hok hr
  obtain rfl := hreads.text_unique hreads'
  refine viable_lexeme (fun {m} hend => ⟨"end of input", ?_⟩) ⟨[], by rwa [List.append_nil]⟩
  simp only [Lexeme.endOfInput, (Cursor.Reads.refl d).skipBlanks Blanks.nil hflush] at hend
  split at hend
  · cases hend
  · exact (Except.error.inj hend).symm

/-- The prefix of a text in front of an error of a rule that has to take up the text is viable if whole texts are
accepted. -/
theorem viablePrefix_of_parse (hm : rule.Moves) (hviable : rule.Viable (Cursor.entry limits text) Whole)
    (hok : ∀ {a d}, rule (Cursor.entry limits text) = .ok (a, d) →
      ∃ read, Whole read ∧ (Cursor.entry limits text).Reads read d ∧ Flush d.rest)
    (haccepts : ∀ {size : Nat} {whole : String} {w s : List Char}, whole.utf8ByteSize ≤ size → Blanks w →
      whole.toList = w ++ s → Whole s → Accepts ⟨size, limits.depth⟩ whole)
    (h : rule.parse limits text = .error (.mismatch offset place expected)) :
    ViablePrefix Accepts limits.depth text offset := by
  rw [parse_eq_result] at h
  rw [result_eq_error_iff (size_of_mismatch h)] at h
  obtain ⟨w, hw, hentry⟩ := Cursor.reads_entry limits text
  cases viable_toEnd hm hviable hok _ h with
  | @mismatch _ rest _ _ hr hwhole =>
    refine viablePrefix_of_reads rest (hentry.trans hr) fun hsize hchars => haccepts hsize hw ?_ hwhole
    rw [hchars, List.append_assoc]

end Rule

/-! ### Documents -/

namespace Document

/-- The definitions of a text stay as they were if the start of a query behind them is made whole. -/
theorem parse_of_query_start {ds : List Definition} {w front query rest : List Char} {op : Operation}
    (hrun : Rule.Run (Rule.definition .standard) (Cursor.entry limits text) ds c)
    (hfront : (Cursor.entry limits text).Reads front c) (hquery : c.Reads query d) (hne : query ≠ [])
    (hop : QueryWithin limits.depth c.position (query ++ rest) op) {size : Nat} {whole : String}
    (hsize : whole.utf8ByteSize ≤ size) (hw : Blanks w)
    (hentry : (Cursor.start text limits.depth).Reads w (Cursor.entry limits text))
    (hchars : whole.toList = w ++ (front ++ (query ++ rest))) :
    Document.parse ⟨size, limits.depth⟩ whole = .ok ⟨ds.filterMap Definition.operation? ++ [op], []⟩ := by
  have hhead (more : List Char) : (query ++ more).head? = query.head? := by
    rw [List.head?_append, List.head?_eq_some_head hne, Option.some_or]
  have hflush : Flush (front ++ (query ++ rest)) := by
    intro x hx
    refine Cursor.flush_entry limits text x ?_
    rw [hfront.rest, hquery.rest]
    rwa [List.head?_append, hhead, ← hhead d.rest, ← List.head?_append] at hx
  obtain ⟨hentry', hrest⟩ := Cursor.reads_entry_of_eq ⟨size, limits.depth⟩ hw hchars hflush
  have hplace : (Cursor.entry ⟨size, limits.depth⟩ whole).position = (Cursor.entry limits text).position := by
    rw [hentry'.position, hentry.position]
    rfl
  have hfront' := Cursor.Reads.of_rest hrest
  have hnext := Cursor.rest_past hrest
  have hrun' := Rule.run_again Strategy.thorough_standard (Nat.zero_le _) hrun hfront hplace rfl rfl
    (Cursor.valid_entry _ whole) hfront' (by rw [hnext, hquery.rest, hhead, hhead])
  refine parse_of_run hsize hrun' hnext ?_
  rwa [hfront'.position, hplace, ← hfront.position]

/-- The prefix of a document in front of an error is viable: the definitions that were read stay as they were, and a
query follows them. -/
theorem viablePrefix_of_parse (h : Document.parse limits text = .error (.mismatch offset place expected)) :
    ViablePrefix (fun limits' whole => ∃ op, Document.parse limits' whole =
      .ok ⟨(read .standard limits text).1.filterMap Definition.operation? ++ [op], []⟩) limits.depth text offset := by
  have hc := Strategy.committed_standard
  have hsize := Rule.size_of_mismatch ((parse_eq_result limits text).symm.trans h)
  rw [parse, parseBy, read_eq_collect hsize] at h
  rw [read_eq_collect hsize]
  obtain ⟨w, hw, hentry⟩ := Cursor.reads_entry limits text
  have hv := Cursor.valid_entry limits text
  cases hcollect : Rule.collect Strategy.standard.retry (Rule.definition .standard) (Cursor.entry limits text) with
  | mk ds out =>
    rw [hcollect] at h
    cases out with
    | ok d => cases h
    | error err =>
      obtain rfl := Except.error.inj h
      obtain ⟨c, hrun, herr, hretry⟩ := Rule.collect_eq_error.mp hcollect
      obtain ⟨front, hfront⟩ := (Rule.moves_definition .standard).run hrun
      have hroom : c.room = limits.depth := hfront.room
      have hviable := Rule.viable_definition hc (hfront.depth_le (Nat.zero_le _)) (hfront.valid hv) _ herr
      rw [hroom] at hviable
      cases hviable with
      | @mismatch query rest d _ hr hwhole =>
        obtain ⟨op, hop⟩ := hwhole
        -- behind the first word of a definition there is no way back, so some of it was read
        have hne : query ≠ [] := by
          rintro rfl
          obtain rfl := hr.unique (.refl _)
          cases (beq_self_eq_true d.offset).symm.trans hretry
        refine viablePrefix_of_reads rest (hentry.trans (hfront.trans hr)) fun hsize hchars => ⟨op, ?_⟩
        exact parse_of_query_start hrun hfront hr hne hop hsize hw hentry (by rw [hchars]; simp only [List.append_assoc])

end Document

/-! ### Every text -/

/-- Where something else was expected than what stands in a text, the text up to there can be gone on with under the same
limit of depth. A document then has its completed queries and one more. -/
theorem mismatch_behind_viablePrefix (limits : Limits) (text : String) (offset : Nat) (place : Position)
    (expected : Expectation) :
    (Value.parse limits text = .error (.mismatch offset place expected) →
      ViablePrefix (fun limits whole => ∃ v, Value.parse limits whole = .ok v) limits.depth text offset) ∧
    (TypeRef.parse limits text = .error (.mismatch offset place expected) →
      ViablePrefix (fun limits whole => ∃ t, TypeRef.parse limits whole = .ok t) limits.depth text offset) ∧
    (Document.parse limits text = .error (.mismatch offset place expected) →
      ViablePrefix (fun limits' whole => ∃ op, Document.parse limits' whole =
        .ok ⟨(Document.read .standard limits text).1.filterMap Definition.operation? ++ [op], []⟩) limits.depth text offset) := by
  have hle : (Cursor.entry limits text).depth ≤ (Cursor.entry limits text).depthLimit := Nat.zero_le _
  refine ⟨fun h => ?_, fun h => ?_, Document.viablePrefix_of_parse⟩
  · have hviable := Rule.viable_literal Strategy.committed_standard hle (Cursor.valid_entry limits text)
    refine Rule.viablePrefix_of_parse (Rule.moves_literal .standard) hviable (fun hr => ?_) (fun hsize hw hchars hs => ?_) h
    · obtain ⟨read, n, hliteral, hn, hdepth, hr, hflush⟩ := Rule.literal_eq_ok hle hr
      have hdepth : 0 + n ≤ limits.depth := hdepth
      rw [Nat.zero_add] at hdepth
      exact ⟨read, ⟨⟨_, hliteral⟩, n, hn, hdepth⟩, hr, hflush⟩
    · obtain ⟨⟨v, hv⟩, n, hn, hdepth⟩ := hs
      exact ⟨v, (Value.parse_eq_ok_iff_within hsize v).mpr ⟨_, _, hw, hchars, hv, n, hn, hdepth⟩⟩
  · have hviable := Rule.viable_typeRef (s := .standard) hle
    refine Rule.viablePrefix_of_parse (Rule.moves_typeRef .standard) hviable (fun hr => ?_) (fun hsize hw hchars hs => ?_) h
    · obtain ⟨read, hreference, hr, hflush, hdepth⟩ := Rule.reference_of_typeRefWithin hr
      have hdepth : 0 + _ ≤ limits.depth := hdepth hle
      rw [Nat.zero_add] at hdepth
      exact ⟨read, ⟨_, hreference, hdepth⟩, hr, hflush⟩
    · obtain ⟨t, hreference, hdepth⟩ := hs
      exact ⟨t, (TypeRef.parse_eq_ok_iff_reference hsize t).mpr ⟨_, _, hw, hchars, hreference, hdepth⟩⟩

/-- A default value that breaks off behind a query at the limit, and a key that breaks off at an escape. -/
theorem viablePrefix_open_brackets :
    ViablePrefix (fun limits whole => ∃ op, Document.parse limits whole =
      .ok ⟨[.ofHead .first .query (some ⟨"a"⟩) [], op], []⟩) 1 "\x7ba\x7d query q($x:[T]=[null true" 25 ∧
    ViablePrefix (fun limits whole => ∃ v, Value.parse limits whole = .ok v) 1 "\x7b\"a\\q" 4 := by
  constructor
  · have hparse : ∃ place expected, Document.parse ⟨64, 1⟩ "\x7ba\x7d query q($x:[T]=[null true" =
        .error (.mismatch 25 place expected) := ⟨_, _, by with_unfolding_all rfl⟩
    have hread : (Document.read .standard ⟨64, 1⟩ "\x7ba\x7d query q($x:[T]=[null true").1.filterMap Definition.operation? =
        [.ofHead .first .query (some ⟨"a"⟩) []] := by with_unfolding_all rfl
    obtain ⟨place, expected, hparse⟩ := hparse
    have hviable := (mismatch_behind_viablePrefix _ _ _ _ _).2.2 hparse
    rwa [hread] at hviable
  · have hparse : ∃ place expected, Value.parse ⟨64, 1⟩ "\x7b\"a\\q" = .error (.mismatch 4 place expected) :=
      ⟨_, _, by with_unfolding_all rfl⟩
    obtain ⟨place, expected, hparse⟩ := hparse
    exact (mismatch_behind_viablePrefix _ _ _ _ _).1 hparse

end RequestDoc

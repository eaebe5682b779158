import RequestDoc.Proofs.Literal.Contents
import RequestDoc.Proofs.Rule.Whole

/-!
Parsing literals is exact. If the limits leave room for every text of its length, a text is parsed to a
value exactly if it writes that value, blanks in front allowed: nothing else is accepted, and no way of
writing a value is refused. Under every limit of depth it is so for the texts that nest no more deeply.
-/

namespace RequestDoc.Value

open Grammar Rule Nesting

variable {limits : Limits} {text : String}

/-- With room for its size and its brackets, a text is parsed as a value exactly if it is a literal of that value,
with or without blanks around it. -/
theorem parse_eq_ok_iff_literal (hsize : text.utf8ByteSize ≤ limits.textSize) (hdepth : text.length ≤ limits.depth)
    (v : Value) :
    Value.parse limits text = .ok v ↔ ∃ w s, Blanks w ∧ text.toList = w ++ s ∧ Literal s v := by
  refine parse_eq_ok_iff_writes hsize (fun hs => ?_) (fun hr => ?_) fun hs hr hend => ?_
  · have hflush := flush_literal hs []
    rwa [List.append_nil] at hflush
  · exact readsLiteral_literalWithin hr
  · exact literal_of_literal Strategy.thorough_standard hs (Cursor.valid_entry limits text) (Cursor.roomy_entry hdepth)
      hr (hend ▸ apart_nil)

/-- A list of a keyword is parsed although blanks stand around it. -/
theorem parse_blank_list : Value.parse ⟨64, 64⟩ " [true] " = .ok (.list [.boolean true]) := by
  refine (parse_eq_ok_iff_literal (by decide) (by decide) _).mpr
    ⟨[' '], ['['] ++ ['t', 'r', 'u', 'e'] ++ [']', ' '], by decide, rfl, ?_⟩
  refine .list [(['t', 'r', 'u', 'e'], .boolean true)] (.self _) ?_ (.one _) ⟨[' '], by decide, rfl⟩
  intro item hi
  obtain rfl := List.mem_singleton.mp hi
  exact .boolean (.self _)

theorem parse_eq_ok_iff_within (hsize : text.utf8ByteSize ≤ limits.textSize) (v : Value) :
    Value.parse limits text = .ok v ↔
      ∃ w s, Blanks w ∧ text.toList = w ++ s ∧ Literal s v ∧ ∃ n, Closed s n ∧ n ≤ limits.depth := by
  refine parse_eq_ok_iff_writes hsize (fun hs => ?_) (fun hr => ?_) fun hs hr hend => ?_
  · have hflush := flush_literal hs.1 []
    rwa [List.append_nil] at hflush
  · obtain ⟨s, n, hliteral, hn, hdepth, hreads, hflush⟩ := literal_eq_ok (Nat.zero_le _) hr
    have hdepth : 0 + n ≤ limits.depth := hdepth
    exact ⟨s, ⟨hliteral, n, hn, by omega⟩, hreads, hflush⟩
  · obtain ⟨hliteral, n, hn, hdepth⟩ := hs
    have hdepth : 0 + n ≤ limits.depth := by omega
    exact literal_of_closed Strategy.thorough_standard hliteral hn (Cursor.valid_entry limits text) hdepth hr
      (hend ▸ apart_nil)

end RequestDoc.Value

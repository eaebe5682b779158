import RequestDoc.Cursor.Lemmas
import RequestDoc.Lexeme
import RequestDoc.Number.Numeral.WellFormed
import RequestDoc.Text.Quoted.Body

/-!
What reading a lexeme does. A lexeme that is read passes its spelling, which comes next in the text, and
the blanks behind it. So each of them leads from a cursor between two characters to another one.
-/

namespace RequestDoc

/-- The second cursor stands behind a spelling that comes next at the first one, and behind the blanks
that follow it. -/
def Cursor.Passes (c : Cursor) (spelling : List Char) (d : Cursor) : Prop :=
  (∃ rest, c.rest = spelling ++ rest) ∧ d = (c.past spelling).skipBlanks

theorem Cursor.Passes.valid {c d : Cursor} {spelling : List Char} (h : c.Passes spelling d)
    (hc : c.Valid) : d.Valid := by
  obtain ⟨⟨rest, hr⟩, rfl⟩ := h
  exact (hc.past hr).skipBlanks

namespace Lexeme

variable {c d : Cursor}

theorem token_eq_ok {t : Token} (h : token t c = .ok ((), d)) : c.Passes t.text.toList d := by
  simp only [token] at h
  split at h
  next hp =>
    rw [Bool.and_eq_true] at hp
    obtain ⟨rest, hr⟩ := List.isPrefixOf_iff_prefix.mp hp.1
    exact ⟨⟨rest, hr.symm⟩, (Prod.mk.inj (Except.ok.inj h)).2.symm⟩
  · cases h

theorem name_eq_ok {s : String} (h : name c = .ok (s, d)) : c.Passes s.toList d := by
  simp only [name] at h
  split at h
  · obtain ⟨rfl, rfl⟩ := Prod.mk.inj (Except.ok.inj h)
    rw [String.toList_ofList]
    exact ⟨⟨_, List.takeWhile_append_dropWhile.symm⟩, rfl⟩
  · cases h

theorem number_eq_ok {x : Binary64} (h : number c = .ok (x, d)) :
    ∃ n : Numeral, n.WellFormed ∧ n.value = x ∧ c.Passes n.text d := by
  unfold number at h
  split at h
  next n rest hn =>
    obtain ⟨rfl, rfl⟩ := Prod.mk.inj (Except.ok.inj h)
    obtain ⟨hw, hr⟩ := Numeral.scan?_eq_some hn
    exact ⟨n, hw, rfl, ⟨rest, hr⟩, rfl⟩
  · cases h

theorem quoted_eq_ok {s : String} (h : quoted c = .ok (s, d)) :
    ∃ raw, Quoted.Body raw s.toList ∧ c.Passes ('"' :: (raw ++ ['"'])) d := by
  unfold quoted at h
  split at h
  next text read hq =>
    obtain ⟨rfl, rfl⟩ := Prod.mk.inj (Except.ok.inj h)
    obtain ⟨raw, rest, hb, rfl, hr⟩ := Quoted.scan_eq_closed hq
    exact ⟨raw, by rwa [String.toList_ofList], ⟨rest, hr⟩, rfl⟩
  · cases h

theorem endOfInput_eq_ok (h : endOfInput c = .ok ((), d)) : d = c.skipBlanks ∧ d.rest = [] := by
  simp only [endOfInput] at h
  split at h
  next he =>
    obtain rfl := (Prod.mk.inj (Except.ok.inj h)).2
    exact ⟨rfl, List.isEmpty_iff.mp he⟩
  · cases h

end Lexeme

end RequestDoc

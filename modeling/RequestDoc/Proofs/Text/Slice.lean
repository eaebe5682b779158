import RequestDoc.Text.ByteSize

/-!
Slices of a text between byte offsets. A slice exists if both offsets are boundaries between characters of the
text, in order; where one of them is within a character or behind the text there is none.
-/

namespace RequestDoc

/-- The offset is a boundary between characters of the text, or its start or its end. -/
abbrev Boundary (text : String) (offset : Nat) : Prop :=
  (String.Pos.Raw.mk offset).IsValid text

/-- The slice of a text from one byte offset to another one. -/
def slice? (text : String) (start stop : Nat) : Option String :=
  if h : start ≤ stop ∧ Boundary text start ∧ Boundary text stop then
    some (text.extract ⟨⟨start⟩, h.2.1⟩ ⟨⟨stop⟩, h.2.2⟩)
  else none

variable {text : String} {start stop : Nat}

theorem byteSize_ofList (cs : List Char) : (String.ofList cs).utf8ByteSize = byteSize cs := by
  rw [← byteSize_toList, String.toList_ofList]

/-- A boundary is as far behind the start as the characters before it take bytes. -/
theorem boundary_iff {offset : Nat} :
    Boundary text offset ↔ ∃ before after, text.toList = before ++ after ∧ offset = byteSize before := by
  rw [Boundary, String.Pos.Raw.isValid_iff_exists_append]
  constructor
  · rintro ⟨first, second, rfl, h⟩
    refine ⟨first.toList, second.toList, String.toList_append, ?_⟩
    rw [byteSize_toList]
    exact congrArg String.Pos.Raw.byteIdx h
  · rintro ⟨before, after, h, rfl⟩
    refine ⟨String.ofList before, String.ofList after, ?_, ?_⟩
    · rw [← String.ofList_append, ← h, String.ofList_toList]
    · rw [← byteSize_ofList]
      rfl

theorem slice?_of_append {before middle after : List Char} (h : text.toList = before ++ middle ++ after) :
    slice? text (byteSize before) (byteSize before + byteSize middle) = some (String.ofList middle) := by
  have hstart : Boundary text (byteSize before) := boundary_iff.mpr ⟨before, middle ++ after, by rw [h, List.append_assoc], rfl⟩
  have hstop : Boundary text (byteSize before + byteSize middle) :=
    boundary_iff.mpr ⟨before ++ middle, after, h, (byteSize_append ..).symm⟩
  have hbytes : text.toByteArray = before.utf8Encode ++ (middle.utf8Encode ++ after.utf8Encode) := by
    rw [← String.utf8Encode_toList, h, List.append_assoc, List.utf8Encode_append, List.utf8Encode_append]
  have hmiddle : text.toByteArray.extract (byteSize before) (byteSize before + byteSize middle) = middle.utf8Encode := by
    rw [hbytes, ← byteSize_utf8Encode before, ← byteSize_utf8Encode middle]
    exact (ByteArray.extract_append_size_add (i := 0)).trans (ByteArray.extract_append_eq_left rfl)
  rw [slice?, dif_pos ⟨Nat.le_add_right .., hstart, hstop⟩]
  congr 1
  rw [← String.toByteArray_inj, String.toByteArray_ofList]
  exact hmiddle

/-- Of two parts that a text starts with, the one with fewer bytes starts the other one. -/
theorem prefix_of_byteSize_le {first second after after' : List Char} (h : first ++ after = second ++ after')
    (hle : byteSize first ≤ byteSize second) : ∃ middle, second = first ++ middle := by
  rcases List.append_eq_append_iff.mp h with ⟨middle, hsecond, -⟩ | ⟨middle, hfirst, -⟩
  · exact ⟨middle, hsecond⟩
  · have hmiddle : middle = [] := by
      rw [hfirst, byteSize_append] at hle
      have hlength := length_le_byteSize middle
      exact List.length_eq_zero_iff.mp (by omega)
    exact ⟨[], by rw [hfirst, hmiddle, List.append_nil, List.append_nil]⟩

theorem eq_of_byteSize_eq {first second after after' : List Char} (h : first ++ after = second ++ after')
    (heq : byteSize first = byteSize second) : first = second ∧ after = after' := by
  obtain ⟨middle, rfl⟩ := prefix_of_byteSize_le h (Nat.le_of_eq heq)
  have hmiddle : middle = [] := by
    rw [byteSize_append] at heq
    have hlength := length_le_byteSize middle
    exact List.length_eq_zero_iff.mp (by omega)
  rw [hmiddle, List.append_nil] at h ⊢
  exact ⟨rfl, List.append_cancel_left h⟩

theorem slice?_eq_some_iff {s : String} :
    slice? text start stop = some s ↔
      ∃ before after, text.toList = before ++ s.toList ++ after ∧ start = byteSize before ∧ stop = start + s.utf8ByteSize := by
  constructor
  · intro h
    by_cases hb : start ≤ stop ∧ Boundary text start ∧ Boundary text stop
    · obtain ⟨before, after, htext, hstart⟩ := boundary_iff.mp hb.2.1
      obtain ⟨before', after', htext', hstop⟩ := boundary_iff.mp hb.2.2
      have hle := hb.1
      rw [hstart, hstop] at hle
      -- what stands before the end of the slice goes on behind what stands before its start
      obtain ⟨middle, rfl⟩ := prefix_of_byteSize_le (htext.symm.trans htext') hle
      have hslice := slice?_of_append htext'
      rw [byteSize_append] at hstop
      rw [hstart, hstop, hslice] at h
      obtain rfl := Option.some.inj h
      refine ⟨before, after', by rwa [String.toList_ofList], hstart, ?_⟩
      rw [byteSize_ofList, hstart, hstop]
    · rw [slice?, dif_neg hb] at h
      cases h
  · rintro ⟨before, after, h, rfl, rfl⟩
    rw [← byteSize_toList, slice?_of_append h, String.ofList_toList]

end RequestDoc

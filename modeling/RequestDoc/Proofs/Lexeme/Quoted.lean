import RequestDoc.Proofs.Lexeme.Bytes
import RequestDoc.Proofs.Text.Faults
import RequestDoc.Value.Printer

/-!
Reading quoted text decodes it. On bytes, quoted text is read by runs of plain characters and by windows for the digits
of long escapes. It is read exactly if decoding it one character at a time comes to its closing quote, and otherwise it
is refused where decoding stops: at its start, at the end of the text or behind a backslash. A printed string is read
back wherever it stands in a text.
-/

namespace RequestDoc

/-- The outcome of reading quoted text is the one of decoding it: the decoded text with the cursor behind the closing
quote and the blanks that follow it, or a mismatch behind what was decoded. -/
structure Cursor.Decodes (c : Cursor) (outcome : Except Mismatch (String × Cursor)) : Prop where
  ok : ∀ s d, outcome = .ok (s, d) ↔
    ∃ read, Quoted.decode c.rest = .closed s.toList read ∧ d = (c.past read).skipBlanks
  error : ∀ m, outcome = .error m ↔
    ∃ fault read, Quoted.decode c.rest = .broken fault read ∧ m = (c.past read).mismatch fault.label

variable {c : Cursor}

theorem Lexeme.decodes_quoted (c : Cursor) : c.Decodes (quoted c) := by
  unfold quoted
  rw [← Quoted.decode_eq_scan]
  cases hdecode : Quoted.decode c.rest with
  | closed text read =>
    refine ⟨fun s d => ⟨fun h => ?_, fun ⟨read', h, hd⟩ => ?_⟩, fun m => ⟨fun h => (nomatch h), fun ⟨_, _, h, _⟩ => ?_⟩⟩
    · obtain ⟨rfl, rfl⟩ := Prod.mk.inj (Except.ok.inj h)
      exact ⟨read, by rw [hdecode, String.toList_ofList], rfl⟩
    · obtain ⟨rfl, rfl⟩ := Quoted.Outcome.closed.inj (hdecode.symm.trans h)
      simp only [String.ofList_toList, hd]
    · cases hdecode.symm.trans h
  | broken fault read =>
    refine ⟨fun s d => ⟨fun h => (nomatch h), fun ⟨_, h, _⟩ => ?_⟩, fun m => ⟨fun h => ?_, fun ⟨fault', read', h, hm⟩ => ?_⟩⟩
    · cases hdecode.symm.trans h
    · exact ⟨fault, read, hdecode, (Except.error.inj h).symm⟩
    · obtain ⟨rfl, rfl⟩ := Quoted.Outcome.broken.inj (hdecode.symm.trans h)
      rw [hm]

/-- Reading quoted text by bytes is decoding it character by character. Decoding comes to a closing quote exactly
behind the body of a quoted text, and stops exactly where such a body breaks off. -/
theorem quoted_decodes (h : c.Valid) :
    (∃ outcome, c.bytes.quoted = some (.of outcome) ∧ Lexeme.quoted c = outcome ∧ c.Decodes outcome) ∧
      (∀ decoded read, Quoted.decode c.rest = .closed decoded read ↔
        ∃ raw rest, Quoted.Body raw decoded ∧ read = '"' :: (raw ++ ['"']) ∧ c.rest = read ++ rest) ∧
      ∀ fault read, Quoted.decode c.rest = .broken fault read ↔ Quoted.Breaks c.rest fault read :=
  ⟨⟨_, h.quoted, rfl, Lexeme.decodes_quoted c⟩, fun _ _ => Quoted.decode_eq_closed_iff, fun _ _ => Quoted.decode_eq_broken_iff⟩

/-- Reading stops behind the backslash of the second escape, whose digits a character of two bytes ends. -/
theorem quoted_decodes_short_escape :
    (Cursor.start "\"é\\u00e9\\u00é9\"" 8).Valid ∧
      Lexeme.quoted (.start "\"é\\u00e9\\u00é9\"" 8) =
        .error (((Cursor.start "\"é\\u00e9\\u00é9\"" 8).past "\"é\\u00e9\\".toList).mismatch "four hex digits") ∧
      Quoted.Breaks "\"é\\u00e9\\u00é9\"".toList .hexDigits "\"é\\u00e9\\".toList := by
  have hvalid := Cursor.valid_start "\"é\\u00e9\\u00é9\"" 8
  obtain ⟨⟨outcome, -, rfl, hdecodes⟩, -, hbreaks⟩ := quoted_decodes hvalid
  have hstops : Quoted.decode "\"é\\u00e9\\u00é9\"".toList = .broken .hexDigits "\"é\\u00e9\\".toList := rfl
  exact ⟨hvalid, (hdecodes.error _).mpr ⟨_, _, hstops, rfl⟩, (hbreaks _ _).mp hstops⟩

/-! ### Printed strings -/

theorem Value.toList_text_string (s : String) : (Value.string s).text.toList = Quoted.encode s.toList := by
  rw [Value.text, String.toList_ofList, Value.chars]

/-- A printed string is read where it comes next, whatever follows it. -/
theorem Lexeme.quoted_of_encode {s : String} {after : List Char} (h : c.rest = Quoted.encode s.toList ++ after) :
    quoted c = .ok (s, (c.past (Quoted.encode s.toList)).skipBlanks) := by
  simp only [quoted, h, Quoted.scan_encode, String.ofList_toList]

/-- The string and the cursor are what reading gives, on characters and on bytes, and the cursor stands behind some
characters of the text with these characters in front of it, as many brackets being open as before. -/
structure Cursor.ReadsBack (c : Cursor) (s : String) (before after : List Char) (d : Cursor) : Prop where
  quoted : Lexeme.quoted c = .ok (s, d)
  bytes : c.bytes.quoted = some (.of (.ok (s, d)))
  behind : d.Behind before
  rest : d.rest = after
  text : d.text = c.text
  depth : d.depth = c.depth
  depthLimit : d.depthLimit = c.depthLimit

/-- A printed string is read back between any two texts. -/
theorem quoted_printed_between (s p tail : String) {c : Cursor} (hvalid : c.Valid)
    (htext : c.text = p ++ (Value.string s).text ++ tail) (hoffset : c.offset = p.utf8ByteSize) :
    ∃ d, c.ReadsBack s (p.toList ++ (Value.string s).text.toList ++ tail.toList.takeWhile Character.isBlank)
      (tail.toList.dropWhile Character.isBlank) d := by
  have hsplit : c.text.toList = p.toList ++ (Quoted.encode s.toList ++ tail.toList) := by
    rw [htext, String.toList_append, String.toList_append, Value.toList_text_string, List.append_assoc]
  obtain ⟨hbehind, hrest⟩ := hvalid.behind_of_offset hsplit (hoffset.trans (byteSize_toList p).symm)
  have hquoted := Lexeme.quoted_of_encode hrest
  have hpast := Cursor.rest_past hrest
  refine ⟨_, hquoted, by rw [hvalid.quoted, hquoted], ?_, ?_, rfl, rfl, rfl⟩
  · rw [Value.toList_text_string, ← hpast]
    exact (hbehind.past hrest).skipBlanks
  · rw [Cursor.rest_skipBlanks, hpast]

/-- A control character is printed with four digits, and the digits right behind it are not part of its escape. -/
theorem quoted_printed_between_digits :
    ∃ d : Cursor, ((Cursor.start "[ \"\\u0001ab\\\"\\u0085\\\\\" , 1]" 8).past "[ ".toList).ReadsBack "\x01ab\"\u0085\\"
      "[ \"\\u0001ab\\\"\\u0085\\\\\" ".toList ", 1]".toList d := by
  have hvalid : ((Cursor.start "[ \"\\u0001ab\\\"\\u0085\\\\\" , 1]" 8).past "[ ".toList).Valid :=
    (Cursor.valid_start _ 8).past (by with_unfolding_all rfl)
  exact quoted_printed_between "\x01ab\"\u0085\\" "[ " " , 1]" hvalid (by with_unfolding_all rfl) (by with_unfolding_all rfl)

end RequestDoc

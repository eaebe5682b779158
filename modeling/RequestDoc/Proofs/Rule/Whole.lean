import RequestDoc.Parse
import RequestDoc.Proofs.Rule.Ahead

/-!
Whole texts. Reading starts behind the blanks in front of a text and has to end behind its last character
that is no blank. So a rule that reads exactly the texts that are written in some way, up to the end, gives
what is written in a whole text, blanks in front of it left aside.
-/

namespace RequestDoc

variable {α : Type} {limits : Limits} {text : String}

namespace Cursor

/-- The cursor before the first lexeme of a text. -/
def entry (limits : Limits) (text : String) : Cursor :=
  (start text limits.depth).skipBlanks

theorem open?_of_size (hsize : text.utf8ByteSize ≤ limits.textSize) :
    open? limits text = .ok (entry limits text) := by
  have hcheck : limits.checkSize text = .ok () := if_neg (Nat.not_lt.mpr hsize)
  simp only [open?, hcheck, entry]

theorem open?_of_tooLarge (h : limits.textSize < text.utf8ByteSize) :
    open? limits text = .error (.textTooLarge limits.textSize text.utf8ByteSize) := by
  simp only [open?, Limits.checkSize, h, if_true]

theorem eq_entry_of_open? {c : Cursor} (h : open? limits text = .ok c) : c = entry limits text := by
  unfold open? at h
  split at h
  · exact (Except.ok.inj h).symm
  · cases h

theorem depth_entry (limits : Limits) (text : String) : (entry limits text).depth = 0 := rfl

theorem valid_entry (limits : Limits) (text : String) : (entry limits text).Valid :=
  (valid_start text limits.depth).skipBlanks

theorem valid_of_open? {c : Cursor} (h : open? limits text = .ok c) : c.Valid := by
  rw [eq_entry_of_open? h]
  exact valid_entry limits text

theorem flush_entry (limits : Limits) (text : String) : Flush (entry limits text).rest := by
  rw [entry, rest_skipBlanks]
  exact flush_dropWhile _

theorem reads_entry (limits : Limits) (text : String) :
    ∃ w, Blanks w ∧ (start text limits.depth).Reads w (entry limits text) :=
  ⟨_, blanks_takeWhile text.toList, reads_skipBlanks _⟩

theorem roomy_entry (h : text.length ≤ limits.depth) : (entry limits text).Roomy := by
  obtain ⟨w, -, hr⟩ := reads_entry limits text
  refine hr.roomy ?_
  show 0 + text.toList.length ≤ limits.depth
  rwa [Nat.zero_add, String.length_toList]

theorem reads_entry_of_eq (limits : Limits) {w s : List Char} (hw : Blanks w) (h : text.toList = w ++ s) (hs : Flush s) :
    (start text limits.depth).Reads w (entry limits text) ∧ (entry limits text).rest = s := by
  have hstart : (start text limits.depth).rest = w ++ s := h
  have hr := Reads.of_rest hstart
  have hrest := rest_past hstart
  have hentry : entry limits text = (start text limits.depth).past w := hr.skipBlanks hw (hrest.symm ▸ hs)
  exact hentry ▸ ⟨hr, hrest⟩

end Cursor

open Cursor

theorem Lexeme.endOfInput_of_blanks {c : Cursor} (h : Blanks c.rest) : endOfInput c = .ok ((), c.skipBlanks) := by
  have hrest : c.rest = c.rest ++ [] := (List.append_nil _).symm
  have hpast := (Reads.of_rest hrest).skipBlanks h (rest_past hrest ▸ flush_nil)
  have hend : c.skipBlanks.atEnd = true := by
    rw [atEnd, hpast, rest_past hrest]
    rfl
  simp only [endOfInput, hend, if_true]

namespace Rule

/-- What the rule gives for a text, whatever it leaves of it. -/
def result (rule : Rule α) (limits : Limits) (text : String) : Except ParseError α := do
  let c ← Cursor.open? limits text
  Prod.fst <$> rule c

/-- The rule, and then the end of the text. -/
def toEnd (rule : Rule α) : Rule α := do
  let a ← rule
  let _ ← lexeme Lexeme.endOfInput
  return a

theorem parse_eq_result (rule : Rule α) (limits : Limits) (text : String) :
    rule.parse limits text = rule.toEnd.result limits text := by
  unfold parse result toEnd
  cases Cursor.open? limits text with
  | error err => rfl
  | ok c =>
    show Except.bind (rule c) _ = Except.map Prod.fst (Except.bind (rule c) _)
    cases rule c with
    | error err => rfl
    | ok r =>
      obtain ⟨a, d⟩ := r
      show Except.bind (lexeme Lexeme.endOfInput d) _ = Except.map Prod.fst (Except.bind (lexeme Lexeme.endOfInput d) _)
      cases lexeme Lexeme.endOfInput d <;> rfl

variable {rule : Rule α} {a : α}

theorem result_of_open? {c : Cursor} (h : Cursor.open? limits text = .ok c) : rule.result limits text = Prod.fst <$> rule c := by
  rw [result, h]
  rfl

theorem result_of_tooLarge (h : limits.textSize < text.utf8ByteSize) :
    rule.result limits text = .error (.textTooLarge limits.textSize text.utf8ByteSize) := by
  rw [result, open?_of_tooLarge h]
  rfl

theorem size_of_result (h : ∀ limit size, rule.result limits text ≠ .error (.textTooLarge limit size)) :
    text.utf8ByteSize ≤ limits.textSize :=
  Nat.not_lt.mp fun hlt => h _ _ (result_of_tooLarge hlt)

theorem result_eq_error_iff {err : ParseError} (hsize : text.utf8ByteSize ≤ limits.textSize) :
    rule.result limits text = .error err ↔ rule (entry limits text) = .error err := by
  rw [result_of_open? (open?_of_size hsize)]
  cases rule (entry limits text) with
  | ok r => exact ⟨(nomatch ·), (nomatch ·)⟩
  | error err' => exact ⟨fun h => congrArg _ (Except.error.inj h), fun h => congrArg _ (Except.error.inj h)⟩

theorem parse_of_error {err : ParseError} (hsize : text.utf8ByteSize ≤ limits.textSize)
    (h : rule (entry limits text) = .error err) : rule.parse limits text = .error err := by
  unfold parse
  rw [open?_of_size hsize]
  show Except.bind (rule (entry limits text)) _ = _
  rw [h]
  rfl

/-- The error of a whole text of an allowed size is met in it. -/
theorem Moves.meets_parse (h : rule.Moves) {err : ParseError} (hsize : text.utf8ByteSize ≤ limits.textSize)
    (herr : rule.parse limits text = .error err) : (entry limits text).Meets err := by
  have hmoves : rule.toEnd.Moves := h.bind fun _ => moves_endOfInput.bind fun _ => moves_pure _
  rw [parse_eq_result, result_eq_error_iff hsize] at herr
  exact hmoves.meets herr

/-- A whole text is read if the rule reads it up to blanks at its end. -/
theorem parse_eq_ok_iff_ends (hsize : text.utf8ByteSize ≤ limits.textSize) :
    rule.parse limits text = .ok a ↔ ∃ d, rule (entry limits text) = .ok (a, d) ∧ Blanks d.rest := by
  have hparse : ∀ {a d}, rule (entry limits text) = .ok (a, d) →
      rule.parse limits text = Except.bind (lexeme Lexeme.endOfInput d) fun _ => .ok a := by
    intro a d hr
    unfold parse
    rw [open?_of_size hsize]
    show Except.bind (rule (entry limits text)) _ = _
    rw [hr]
    rfl
  constructor
  · intro h
    cases hr : rule (entry limits text) with
    | error err =>
      rw [parse_of_error hsize hr] at h
      cases h
    | ok r =>
      obtain ⟨b, d⟩ := r
      rw [hparse hr] at h
      cases he : lexeme Lexeme.endOfInput d with
      | error err =>
        rw [he] at h
        cases h
      | ok r' =>
        rw [he] at h
        obtain rfl := Except.ok.inj h
        obtain ⟨⟨⟩, e⟩ := r'
        obtain ⟨rfl, hend⟩ := Lexeme.endOfInput_eq_ok (lexeme_eq_ok.mp he)
        have hrest := (reads_skipBlanks d).rest
        rw [hend, List.append_nil] at hrest
        exact ⟨d, rfl, hrest ▸ blanks_takeWhile _⟩
  · rintro ⟨d, hr, hd⟩
    rw [hparse hr, lexeme_eq_ok.mpr (Lexeme.endOfInput_of_blanks hd)]
    rfl

/-- A rule that reads exactly what is written in some way gives what a whole text is written as. -/
theorem parse_eq_ok_iff_writes {Writes : List Char → Prop} (hsize : text.utf8ByteSize ≤ limits.textSize)
    (hflush : ∀ {s}, Writes s → Flush s)
    (hsound : ∀ {d}, rule (entry limits text) = .ok (a, d) →
      ∃ s, Writes s ∧ (entry limits text).Reads s d ∧ Flush d.rest)
    (hcomplete : ∀ {s d}, Writes s → (entry limits text).Reads s d → d.rest = [] →
      rule (entry limits text) = .ok (a, d)) :
    rule.parse limits text = .ok a ↔ ∃ w s, Blanks w ∧ text.toList = w ++ s ∧ Writes s := by
  rw [parse_eq_ok_iff_ends hsize]
  constructor
  · rintro ⟨d, hr, hd⟩
    obtain ⟨s, hs, hreads, hdflush⟩ := hsound hr
    obtain ⟨w, hw, hentry⟩ := reads_entry limits text
    have hnil : d.rest = [] := by
      cases hrest : d.rest with
      | nil => rfl
      | cons x rest =>
        have hblank : Character.isBlank x = true := hd x (by simp [hrest])
        rw [hdflush x (by simp [hrest])] at hblank
        cases hblank
    refine ⟨w, s, hw, ?_, hs⟩
    have hrest := hreads.rest
    rw [hnil, List.append_nil] at hrest
    rw [← hrest]
    exact hentry.rest
  · rintro ⟨w, s, hw, htext, hs⟩
    have hrest : (entry limits text).rest = s := (reads_entry_of_eq limits hw htext (hflush hs)).2
    have hrest' : (entry limits text).rest = s ++ [] := by rw [hrest, List.append_nil]
    have hend := rest_past hrest'
    exact ⟨_, hcomplete hs (.of_rest hrest') hend, by rw [hend]; exact Blanks.nil⟩

/-- The definitions of a text, as a document. -/
def document (s : Strategy) : Rule Document := do
  let definitions ← many s.retry (definition s)
  return .ofDefinitions definitions

end Rule

theorem Document.read_eq_collect {s : Strategy} (hsize : text.utf8ByteSize ≤ limits.textSize) :
    read s limits text = Rule.collect s.retry (Rule.definition s) (Cursor.entry limits text) := by
  unfold read
  rw [Cursor.open?_of_size hsize]

theorem Document.parseBy_eq_result (s : Strategy) (limits : Limits) (text : String) :
    parseBy s limits text = (Rule.document s).result limits text := by
  unfold parseBy read Rule.result
  cases Cursor.open? limits text with
  | error err => rfl
  | ok c =>
    show ofReading (Rule.collect _ _ c) = Prod.fst <$> Except.bind (Rule.many _ _ c) _
    unfold Rule.many
    cases Rule.collect s.retry (Rule.definition s) c with
    | mk ds out => cases out <;> rfl

theorem Document.parse_eq_result (limits : Limits) (text : String) :
    parse limits text = (Rule.document .standard).result limits text :=
  parseBy_eq_result .standard limits text

end RequestDoc

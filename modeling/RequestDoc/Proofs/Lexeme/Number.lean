import RequestDoc.Proofs.Lexeme.Bytes
import RequestDoc.Proofs.Number.Longest

/-!
Numbers are the longest matches of their expression. A number is measured on the bytes of a text, and the slice of that
size is handed to a function that makes a number of it. What is handed over is the longest text that matches the
expression of numerals, so a function that takes all such texts never refuses it.
-/

namespace RequestDoc

/-- The number that a text writes, if the text is a numeral. -/
def Numeral.read? (text : String) : Option Binary64 :=
  match scan? text.toList with
  | some (n, []) => some n.value
  | _ => none

/-- The slice of the numeral that comes next, if one does. -/
def ByteCursor.numeral? (c : ByteCursor) : Option (Option String) := do
  let rest ← c.rest?
  match Numeral.size? (bytesOf rest) with
  | none => return none
  | some size => (slice? rest 0 size).map some

/-- Reads a number by a function that makes numbers of texts. -/
def ByteCursor.numberBy (parse : String → Option Binary64) (c : ByteCursor) : Option (ByteOutcome Binary64) := do
  match ← c.numeral? with
  | none => return .error (c.mismatch "number")
  | some spelling =>
    match parse spelling with
    | none => return .error (c.mismatch "number")
    | some x =>
      let next ← c.advance? spelling.utf8ByteSize
      next.lexeme x

/-- Reads the longest numeral by a function that makes numbers of texts. -/
def Lexeme.numberBy (parse : String → Option Binary64) : Lexeme Binary64 := fun c =>
  match Numeral.scan? c.rest with
  | none => .error (c.mismatch "number")
  | some (n, _) =>
    match parse (String.ofList n.text) with
    | none => .error (c.mismatch "number")
    | some x => .ok (x, (c.past n.text).skipBlanks)

/-- The function makes a number of every text that the expression of numerals matches. -/
def TakesNumerals (parse : String → Option Binary64) : Prop :=
  ∀ s : String, s.toList ∈ Numeral.expression.matches' → ∃ x, parse s = some x

/-- The outcome of reading a number: if numerals come next, the number that the function makes of the longest one, with the
cursor behind it and the blanks that follow it; else a mismatch at the cursor. -/
structure Cursor.ReadsLongest (c : Cursor) (parse : String → Option Binary64)
    (outcome : Except Mismatch (Binary64 × Cursor)) : Prop where
  succeeds : (∃ r, outcome = .ok r) ↔ ∃ t ∈ Numeral.expression.matches', t <+: c.rest
  ok : ∀ x d, outcome = .ok (x, d) ↔
    ∃ t, Longest Numeral.expression.matches' c.rest t ∧ parse (String.ofList t) = some x ∧ d = (c.past t).skipBlanks
  error : ∀ m, outcome = .error m ↔ (∀ t ∈ Numeral.expression.matches', ¬t <+: c.rest) ∧ m = c.mismatch "number"

variable {c : Cursor} {parse : String → Option Binary64}

/-! ### Reading by a function -/

theorem Numeral.read?_text {n : Numeral} (h : n.WellFormed) : read? (String.ofList n.text) = some n.value := by
  have hends : Ends [] := fun _ hx => nomatch hx
  have hscan := scan?_text_append h hends
  rw [List.append_nil] at hscan
  rw [read?, String.toList_ofList, hscan]

theorem Numeral.takesNumerals_read? : TakesNumerals read? := by
  intro s hs
  obtain ⟨n, hn, htext⟩ := mem_expression_iff.mp hs
  exact ⟨n.value, by rw [← String.ofList_toList (s := s), ← htext, read?_text hn]⟩

theorem Lexeme.number_eq_numberBy : number = numberBy Numeral.read? := by
  funext c
  unfold number numberBy
  cases hscan : Numeral.scan? c.rest with
  | none => rfl
  | some r => simp only [Numeral.read?_text (Numeral.scan?_eq_some hscan).1]

theorem Cursor.Valid.numeral? (h : c.Valid) :
    c.bytes.numeral? = some ((Numeral.scan? c.rest).map fun (n, _) => String.ofList n.text) := by
  simp only [ByteCursor.numeral?, h.rest?, Option.bind_eq_bind, Option.bind_some, bytesOf_ofList, Numeral.size?_encoded]
  cases hscan : Numeral.scan? c.rest with
  | none => rfl
  | some r =>
    have hrest : (String.ofList c.rest).toList = [] ++ r.1.text ++ r.2 := by
      rw [String.toList_ofList]
      exact (Numeral.scan?_eq_some hscan).2
    have hslice := slice?_of_append hrest
    rw [byteSize_nil, Nat.zero_add] at hslice
    simp only [Option.map_some, hslice]

/-- By bytes a number is read as by characters. -/
theorem Cursor.Valid.numberBy (h : c.Valid) (parse : String → Option Binary64) :
    c.bytes.numberBy parse = some (.of (Lexeme.numberBy parse c)) := by
  simp only [ByteCursor.numberBy, h.numeral?, Option.bind_eq_bind, Option.bind_some, Lexeme.numberBy]
  cases hscan : Numeral.scan? c.rest with
  | none => rfl
  | some r =>
    have hr := (Numeral.scan?_eq_some hscan).2
    simp only [Option.map_some]
    cases parse (String.ofList r.1.text) with
    | none => rfl
    | some x =>
      simp only [byteSize_ofList, h.advance? hr, Option.bind_some]
      exact (h.past hr).lexeme x

/-! ### The longest numeral -/

theorem Lexeme.readsLongest_numberBy (h : TakesNumerals parse) (c : Cursor) : c.ReadsLongest parse (numberBy parse c) := by
  unfold numberBy
  cases hscan : Numeral.scan? c.rest with
  | none =>
    have hnone := Numeral.not_starts_of_scan? hscan
    refine ⟨⟨fun ⟨_, h⟩ => (nomatch h), fun ⟨t, ht, hstarts⟩ => absurd hstarts (hnone t ht)⟩,
      fun x d => ⟨fun h => (nomatch h), fun ⟨t, ht, _⟩ => absurd ht.starts (hnone t ht.mem)⟩,
      fun m => ⟨fun h => ⟨hnone, (Except.error.inj h).symm⟩, fun h => congrArg _ h.2.symm⟩⟩
  | some r =>
    have hlongest := Numeral.longest_of_scan? hscan
    obtain ⟨x, hx⟩ := h (String.ofList r.1.text) (by rw [String.toList_ofList]; exact hlongest.mem)
    simp only [hx]
    refine ⟨⟨fun _ => ⟨_, hlongest.mem, hlongest.starts⟩, fun _ => ⟨_, rfl⟩⟩, fun y d => ⟨fun h => ?_, fun h => ?_⟩,
      fun m => ⟨fun h => (nomatch h), fun h => absurd hlongest.starts (h.1 _ hlongest.mem)⟩⟩
    · obtain ⟨rfl, rfl⟩ := Prod.mk.inj (Except.ok.inj h)
      exact ⟨_, hlongest, hx, rfl⟩
    · obtain ⟨t, ht, hy, rfl⟩ := h
      obtain rfl := ht.unique hlongest
      rw [Option.some.inj (hx.symm.trans hy)]

/-- The longest numeral is read at every cursor, and on bytes by every function that takes all numerals, since no
slice that it is handed is refused. -/
theorem number_reads_longest (c : Cursor) :
    c.ReadsLongest Numeral.read? (Lexeme.number c) ∧
    ∀ parse, TakesNumerals parse → c.Valid →
      (∃ outcome, c.bytes.numberBy parse = some (.of outcome) ∧ c.ReadsLongest parse outcome) ∧
      ∀ spelling, c.bytes.numeral? = some (some spelling) → parse spelling ≠ none := by
  refine ⟨?_, fun parse hparse hc => ⟨⟨_, hc.numberBy parse, Lexeme.readsLongest_numberBy hparse c⟩, fun spelling h => ?_⟩⟩
  · rw [Lexeme.number_eq_numberBy]
    exact Lexeme.readsLongest_numberBy Numeral.takesNumerals_read? c
  · rw [hc.numeral?] at h
    obtain ⟨r, hscan, rfl⟩ := Option.map_eq_some_iff.mp (Option.some.inj h)
    have hmem := (Numeral.longest_of_scan? hscan).mem
    obtain ⟨x, hx⟩ := hparse (String.ofList r.1.text) (by rwa [String.toList_ofList])
    rw [hx]
    exact Option.some_ne_none x

/-- An exponent without digits is left in the text. -/
theorem number_reads_longest_open_exponent :
    TakesNumerals Numeral.read? ∧ (Cursor.start "-1.5e+ 0" 8).Valid ∧
      Lexeme.number (.start "-1.5e+ 0" 8) =
        .ok (⟨true, 0x3FF8000000000000, by decide⟩, ((Cursor.start "-1.5e+ 0" 8).past "-1.5".toList).skipBlanks) ∧
      (Cursor.start "-1.5e+ 0" 8).bytes.numeral? = some (some "-1.5") ∧ Numeral.read? "-1.5" ≠ none := by
  have hscan : Numeral.scan? "-1.5e+ 0".toList = some (⟨true, ['1'], ['5'], none⟩, "e+ 0".toList) := rfl
  have hvalue : Numeral.read? (String.ofList "-1.5".toList) = some ⟨true, 0x3FF8000000000000, by decide⟩ := by decide +kernel
  have hvalid := Cursor.valid_start "-1.5e+ 0" 8
  have hslice : (Cursor.start "-1.5e+ 0" 8).bytes.numeral? = some (some "-1.5") := by
    rw [hvalid.numeral?]
    rfl
  obtain ⟨hreads, hparse⟩ := number_reads_longest (.start "-1.5e+ 0" 8)
  obtain ⟨-, hnever⟩ := hparse Numeral.read? Numeral.takesNumerals_read? hvalid
  exact ⟨Numeral.takesNumerals_read?, hvalid, (hreads.ok _ _).mpr ⟨_, Numeral.longest_of_scan? hscan, hvalue, rfl⟩, hslice,
    hnever "-1.5" hslice⟩

end RequestDoc

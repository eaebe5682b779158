import RequestDoc.Proofs.Cursor.Bytes
import RequestDoc.Proofs.Lexeme.Exact
import RequestDoc.Proofs.Number.Bytes
import RequestDoc.Proofs.Text.Settled

/-!
Reading lexemes by bytes. A lexeme is read with slices at byte offsets: tokens and names are passed by the size of their
spelling, a number by the bytes that its parts are counted to, and quoted text piece by piece, with one byte for each
quote, backslash and letter and five for a long escape. At a cursor between two characters every slice exists, and
what is read is what is read by characters.
-/

namespace RequestDoc

/-- What comes of reading at a cursor that knows its text by bytes. -/
abbrev ByteOutcome (α : Type) := Except Mismatch (α × ByteCursor)

namespace ByteCursor

/-- What was read, and the cursor behind the blanks that follow it. -/
def lexeme {α : Type} (value : α) (c : ByteCursor) : Option (ByteOutcome α) := do
  let next ← c.skipBlanks?
  return .ok (value, next)

/-- Reads a token. -/
def token (t : Token) (c : ByteCursor) : Option (ByteOutcome Unit) := do
  let rest ← c.rest?
  if t.text.toList.isPrefixOf rest.toList then
    let next ← c.advance? t.text.utf8ByteSize
    let follow ← next.peek?
    if t.isKeyword && follow.any Character.continuesName then return .error (c.mismatch t.label)
    else next.lexeme ()
  else return .error (c.mismatch t.label)

/-- Reads a name. -/
def name (c : ByteCursor) : Option (ByteOutcome String) := do
  let first ← c.peek?
  if first.any Character.startsName then
    let (spelling, next) ← c.takeWhile? Character.continuesName
    next.lexeme spelling
  else return .error (c.mismatch "identifier")

/-- Reads a number. -/
def number (c : ByteCursor) : Option (ByteOutcome Binary64) := do
  let rest ← c.rest?
  match Numeral.size? (bytesOf rest) with
  | none => return .error (c.mismatch "number")
  | some size =>
    let spelling ← slice? rest 0 size
    match Numeral.scan? spelling.toList with
    | some (numeral, []) =>
      let next ← c.advance? size
      next.lexeme numeral.value
    | _ => return .error (c.mismatch "number")

/-- Reads a long escape at its letter. -/
def longEscape (c : ByteCursor) : Option (ByteOutcome Char) := do
  let rest ← c.rest?
  match (slice? rest 1 5).filter fun hex => (bytesOf hex).all isHexByte with
  | none => return .error (c.mismatch Quoted.Fault.hexDigits.label)
  | some hex =>
    match (Quoted.hexNumber? hex.toList).filter fun n => !(0xD800 ≤ n && n ≤ 0xDFFF) with
    | none => return .error (c.mismatch Quoted.Fault.surrogate.label)
    | some n =>
      let next ← c.advance? 5
      return .ok (Char.ofNat n, next)

/-- Reads an escape at its backslash. -/
def escape (c : ByteCursor) : Option (ByteOutcome Char) := do
  let c ← c.advance? 1
  let letter ← c.peek?
  if letter = some 'u' then c.longEscape
  else
    match letter.bind Quoted.shortEscape? with
    | none => return .error (c.mismatch Quoted.Fault.escape.label)
    | some x =>
      let next ← c.advance? 1
      return .ok (x, next)

/-- Reads on after an opening quote, with what was decoded before. -/
def quotedBody (decoded : List Char) (c : ByteCursor) : Option (ByteOutcome String) :=
  match c.peek? with
  | none => none
  | some none => some (.error (c.mismatch Quoted.Fault.unclosed.label))
  | some (some x) =>
    if x = '"' then (c.advance? 1).bind fun next => next.lexeme (String.ofList decoded)
    else if x = '\\' then
      match c.escape with
      | none => none
      | some (.error m) => some (.error m)
      | some (.ok (y, next)) => if next.left < c.left then quotedBody (decoded ++ [y]) next else none
    else
      match c.takeWhile? fun y => y ≠ '"' && y ≠ '\\' with
      | none => none
      | some (part, next) => if next.left < c.left then quotedBody (decoded ++ part.toList) next else none
termination_by c.left

/-- Reads a quoted text. -/
def quoted (c : ByteCursor) : Option (ByteOutcome String) := do
  let first ← c.peek?
  if first = some '"' then
    let next ← c.advance? 1
    next.quotedBody []
  else return .error (c.mismatch Quoted.Fault.unopened.label)

/-- Reads the end of the text. -/
def endOfInput (c : ByteCursor) : Option (ByteOutcome Unit) := do
  let c ← c.skipBlanks?
  if c.atEnd then return .ok ((), c) else return .error (c.mismatch "end of input")

end ByteCursor

variable {α : Type} {c : Cursor}

/-- What was read by characters, with a cursor that knows its text by bytes. -/
def ByteOutcome.of (result : Except Mismatch (α × Cursor)) : ByteOutcome α :=
  result.map fun (a, d) => (a, d.bytes)

namespace Cursor.Valid

theorem lexeme (h : c.Valid) (a : α) : c.bytes.lexeme a = some (.of (.ok (a, c.skipBlanks))) := by
  simp only [ByteCursor.lexeme, h.skipBlanks?]
  rfl

theorem token (h : c.Valid) (t : Token) : c.bytes.token t = some (.of (Lexeme.token t c)) := by
  simp only [ByteCursor.token, h.rest?, Option.bind_eq_bind, Option.bind_some, String.toList_ofList, Lexeme.token]
  by_cases hp : t.text.toList.isPrefixOf c.rest = true
  · obtain ⟨rest, hr⟩ := List.isPrefixOf_iff_prefix.mp hp
    have hpast := h.past hr.symm
    have hadvance := h.advance? hr.symm
    rw [byteSize_toList] at hadvance
    rw [if_pos hp, hadvance, Option.bind_some, hpast.peek?, Option.bind_some, hp, Bool.true_and]
    cases hk : t.isKeyword && (c.past t.text.toList).rest.head?.any Character.continuesName with
    | true => rfl
    | false => exact hpast.lexeme ()
  · rw [if_neg hp, if_neg (by simp [hp])]
    rfl

theorem name (h : c.Valid) : c.bytes.name = some (.of (Lexeme.name c)) := by
  simp only [ByteCursor.name, h.peek?, Option.bind_eq_bind, Option.bind_some, Lexeme.name]
  by_cases hs : c.rest.head?.any Character.startsName = true
  · have hpast := h.past (List.takeWhile_append_dropWhile (p := Character.continuesName) (l := c.rest)).symm
    rw [if_pos hs, if_pos hs, h.takeWhile?, Option.bind_some]
    exact hpast.lexeme _
  · rw [if_neg hs, if_neg hs]
    rfl

theorem endOfInput (h : c.Valid) : c.bytes.endOfInput = some (.of (Lexeme.endOfInput c)) := by
  simp only [ByteCursor.endOfInput, h.skipBlanks?, Option.bind_eq_bind, Option.bind_some, h.skipBlanks.atEnd, Lexeme.endOfInput]
  cases c.skipBlanks.atEnd <;> rfl

theorem number (h : c.Valid) : c.bytes.number = some (.of (Lexeme.number c)) := by
  simp only [ByteCursor.number, h.rest?, Option.bind_eq_bind, Option.bind_some, bytesOf_ofList, Numeral.size?_encoded,
    Lexeme.number]
  cases hscan : Numeral.scan? c.rest with
  | none => rfl
  | some r =>
    obtain ⟨n, rest⟩ := r
    obtain ⟨hn, hr⟩ := Numeral.scan?_eq_some hscan
    have hslice : slice? (String.ofList c.rest) 0 (byteSize n.text) = some (String.ofList n.text) := by
      have hrest : (String.ofList c.rest).toList = [] ++ n.text ++ rest := by rwa [String.toList_ofList]
      have hfound := slice?_of_append hrest
      rwa [byteSize_nil, Nat.zero_add] at hfound
    have hagain : Numeral.scan? n.text = some (n, []) := by
      have hends : Numeral.Ends [] := by
        intro x hx
        cases hx
      have hfound := Numeral.scan?_text_append hn hends
      rwa [List.append_nil] at hfound
    simp only [Option.map_some, hslice, Option.bind_some, String.toList_ofList, hagain, h.advance? hr]
    exact (h.past hr).lexeme _

theorem left_past_lt (h : c.Valid) {taken rest : List Char} (hr : c.rest = taken ++ rest) (hne : taken ≠ []) :
    (c.past taken).bytes.left < c.bytes.left :=
  (Cursor.Reads.of_rest hr).left_lt h hne

end Cursor.Valid

/-! ### Quoted texts -/

namespace Quoted

/-- The outcome with characters that were read before. -/
def Outcome.behind (front : List Char) : Outcome → Outcome
  | closed text read => closed text (front ++ read)
  | broken fault read => broken fault (front ++ read)

theorem lt_of_shortEscape? {letter x : Char} (h : shortEscape? letter = some x) : letter.toNat < 128 := by
  have hforms : shortForms.all (·.1.toNat < 128) = true := by decide
  exact of_decide_eq_true (List.all_eq_true.mp hforms _ (shortEscape?_eq_some_iff.mp h))

/-- What was read before makes no difference but that it stands in front. -/
theorem scanBody_behind (text read before cs : List Char) :
    scanBody text (read ++ before) cs = (scanBody text read cs).behind before.reverse := by
  fun_induction scanBody text read cs with
  | case1 text read => simp [scanBody, Outcome.behind]
  | case2 text read rest => simp [scanBody, Outcome.behind]
  | case3 text read rest fault hfault =>
    rw [scanBody, if_neg (by decide), if_pos rfl, hfault]
    simp [Outcome.behind]
  | case4 text read rest x n hx _ ih =>
    rw [scanBody, if_neg (by decide), if_pos rfl, hx, ← ih, List.append_assoc, List.cons_append]
  | case5 text read x rest hquote hslash ih =>
    rw [scanBody, if_neg hquote, if_neg hslash, ← ih, List.cons_append]

theorem scanBody_plain {part : List Char} (h : ∀ x ∈ part, x ≠ '"' ∧ x ≠ '\\') (text rest : List Char) :
    scanBody text [] (part ++ rest) = (scanBody (part.reverse ++ text) [] rest).behind part := by
  induction part generalizing text with
  | nil =>
    cases hscan : scanBody text [] rest <;> simp [hscan, Outcome.behind]
  | cons x part ih =>
    obtain ⟨hquote, hslash⟩ := h x List.mem_cons_self
    have hpart := ih (fun y hy => h y (List.mem_cons_of_mem x hy)) (x :: text)
    have hbehind := scanBody_behind (x :: text) [] [x] (part ++ rest)
    rw [List.nil_append] at hbehind
    rw [List.cons_append, scanBody, if_neg hquote, if_neg hslash, hbehind, hpart]
    cases hscan : scanBody (part.reverse ++ x :: text) [] rest <;> simp [hscan, Outcome.behind]

/-- Four hexadecimal digits behind the letter of a long escape are a slice of four bytes. -/
theorem hexSlice_of_some {more : List Char} {n : Nat} (h : hexNumber? more = some n) :
    ∃ hex, ((slice? (String.ofList ('u' :: more)) 1 5).filter fun hex => (bytesOf hex).all isHexByte) = some hex ∧
      hexNumber? hex.toList = some n := by
  obtain ⟨x, y, z, w, rest, rfl, hhex⟩ := hexNumber?_eq_some h
  have hascii : Ascii [x, y, z, w] := fun v hv => encodes_hex.char_lt (hhex v hv)
  have hslice : slice? (String.ofList ('u' :: x :: y :: z :: w :: rest)) 1 5 = some (String.ofList [x, y, z, w]) := by
    have htext : (String.ofList ('u' :: x :: y :: z :: w :: rest)).toList = ['u'] ++ [x, y, z, w] ++ rest := String.toList_ofList
    have hfound := slice?_of_append htext
    rwa [hascii.byteSize] at hfound
  refine ⟨String.ofList [x, y, z, w], ?_, ?_⟩
  · rw [hslice, Option.filter_some, bytesOf_ofList, encodes_hex.all, if_pos (List.all_eq_true.mpr hhex)]
  · rwa [String.toList_ofList]

theorem hexSlice_of_none {more : List Char} (h : hexNumber? more = none) :
    ((slice? (String.ofList ('u' :: more)) 1 5).filter fun hex => (bytesOf hex).all isHexByte) = none := by
  refine Option.filter_eq_none_iff.mpr fun hex hslice hall => ?_
  obtain ⟨before, after, htext, hstart, hstop⟩ := slice?_eq_some_iff.mp hslice
  rw [← String.ofList_toList (s := hex), bytesOf_ofList, encodes_hex.all] at hall
  have hhex := List.all_eq_true.mp hall
  have hascii : Ascii hex.toList := fun x hx => encodes_hex.char_lt (hhex x hx)
  -- a slice of four such bytes has four characters, and they stand right behind the letter
  have hlength : hex.toList.length = 4 := by
    rw [← hascii.byteSize, byteSize_toList]
    omega
  obtain ⟨x, y, z, w, hchars⟩ : ∃ x y z w, hex.toList = [x, y, z, w] := by
    match hex.toList, hlength with
    | [x, y, z, w], _ => exact ⟨x, y, z, w, rfl⟩
  rw [String.toList_ofList, hchars] at htext
  rw [hchars] at hhex
  cases before with
  | nil => cases hstart
  | cons u before =>
    obtain ⟨rfl, hmore⟩ := List.cons.inj htext
    have hbefore : before = [] := by
      have hlength := length_le_byteSize before
      rw [byteSize_cons] at hstart
      exact List.length_eq_zero_iff.mp (by
        have hu : Char.utf8Size 'u' = 1 := rfl
        omega)
    subst hbefore
    obtain ⟨a, ha⟩ := Option.isSome_iff_exists.mp (hhex x (by simp))
    obtain ⟨b, hb⟩ := Option.isSome_iff_exists.mp (hhex y (by simp))
    obtain ⟨c, hc⟩ := Option.isSome_iff_exists.mp (hhex z (by simp))
    obtain ⟨d, hd⟩ := Option.isSome_iff_exists.mp (hhex w (by simp))
    rw [hmore] at h
    simp [hexNumber?, ha, hb, hc, hd] at h

end Quoted

/-- What the outcome of reading a quoted text comes to at a cursor. -/
def Cursor.quotedOutcome (c : Cursor) : Quoted.Outcome → Except Mismatch (String × Cursor)
  | .closed text read => .ok (String.ofList text, (c.past read).skipBlanks)
  | .broken fault read => .error ((c.past read).mismatch fault.label)

theorem Cursor.quotedOutcome_behind (c : Cursor) (front : List Char) (outcome : Quoted.Outcome) :
    c.quotedOutcome (outcome.behind front) = (c.past front).quotedOutcome outcome := by
  cases outcome <;> simp only [Quoted.Outcome.behind, quotedOutcome, past_past]

/-- Behind the opening quote and what was decoded, reading by bytes comes to what reading by characters does. -/
def Cursor.ReadsBody (c : Cursor) (decoded : List Char) : Prop :=
  c.bytes.quotedBody decoded = some (.of (c.quotedOutcome (Quoted.scanBody decoded.reverse [] c.rest)))

theorem Cursor.ReadsBody.behind {front rest decoded : List Char} (h : (c.past front).ReadsBody decoded)
    (hr : c.rest = front ++ rest) : (c.past front).bytes.quotedBody decoded =
      some (.of (c.quotedOutcome ((Quoted.scanBody decoded.reverse [] rest).behind front))) := by
  rw [ReadsBody, rest_past hr] at h
  rw [h, quotedOutcome_behind]

namespace Cursor.Valid

theorem longEscape (h : c.Valid) {more : List Char} (hr : c.rest = 'u' :: more) :
    c.bytes.longEscape = some (.of (match Quoted.escape ('u' :: more) with
      | .ok (x, n) => .ok (x, c.past (('u' :: more).take n))
      | .error fault => .error (c.mismatch fault.label))) := by
  simp only [ByteCursor.longEscape, h.rest?, hr, Option.bind_eq_bind, Option.bind_some]
  have hescape : Quoted.escape ('u' :: more) = match Quoted.hexNumber? more with
      | none => .error .hexDigits
      | some n => if 0xD800 ≤ n ∧ n ≤ 0xDFFF then .error .surrogate else .ok (Char.ofNat n, 5) := rfl
  cases hn : Quoted.hexNumber? more with
  | none =>
    rw [hescape, hn, Quoted.hexSlice_of_none hn]
    rfl
  | some n =>
    obtain ⟨hex, hslice, hhex⟩ := Quoted.hexSlice_of_some hn
    rw [hescape, hn, hslice]
    simp only [hhex, Option.filter_some]
    by_cases hsurrogate : 0xD800 ≤ n ∧ n ≤ 0xDFFF
    · simp only [hsurrogate, and_self, decide_true, Bool.and_self, Bool.not_true, Bool.false_eq_true, if_false, if_true]
      rfl
    · have hfilter : (!(decide (0xD800 ≤ n) && decide (n ≤ 0xDFFF))) = true := by
        rwa [Bool.not_eq_true', ← Bool.not_eq_true, Bool.and_eq_true, decide_eq_true_eq, decide_eq_true_eq]
      obtain ⟨x, y, z, w, rest, rfl, hdigits⟩ := Quoted.hexNumber?_eq_some hn
      have hascii : Ascii ['u', x, y, z, w] := by
        refine (Ascii.singleton (c := 'u') (by decide)).append (fun v hv => encodes_hex.char_lt (hdigits v hv))
      have htaken : c.rest = ['u', x, y, z, w] ++ rest := hr
      have hadvance := h.advance? htaken
      rw [hascii.byteSize] at hadvance
      simp only [hfilter, if_true, if_neg hsurrogate]
      rw [show 5 = ['u', x, y, z, w].length from rfl, hadvance]
      rfl

theorem escape (h : c.Valid) {rest : List Char} (hr : c.rest = '\\' :: rest) :
    c.bytes.escape = some (.of (match Quoted.escape rest with
      | .ok (x, n) => .ok (x, c.past ('\\' :: rest.take n))
      | .error fault => .error ((c.past ['\\']).mismatch fault.label))) := by
  have hslash : c.rest = ['\\'] ++ rest := hr
  have hadvance : c.bytes.advance? 1 = some (c.past ['\\']).bytes := h.advance? hslash
  have hpast := h.past hslash
  have hrest := Cursor.rest_past hslash
  simp only [ByteCursor.escape, hadvance, Option.bind_eq_bind, Option.bind_some, hpast.peek?, hrest]
  cases rest with
  | nil => rfl
  | cons x more =>
    by_cases hu : x = 'u'
    · subst hu
      rw [List.head?_cons, if_pos rfl, hpast.longEscape hrest]
      cases Quoted.escape ('u' :: more) with
      | error fault => rfl
      | ok r =>
        simp only [past_past]
        rfl
    · rw [List.head?_cons, if_neg (by simpa using hu), Option.bind_some]
      cases hshort : Quoted.shortEscape? x with
      | none =>
        have hescape : Quoted.escape (x :: more) = .error .escape := by simp only [Quoted.escape, hshort, if_neg hu]
        rw [hescape]
        rfl
      | some y =>
        have hescape : Quoted.escape (x :: more) = .ok (y, 1) := by simp only [Quoted.escape, hshort]
        have hlt := Quoted.lt_of_shortEscape? hshort
        have hletter : (c.past ['\\']).rest = [x] ++ more := hrest
        have hnext := hpast.advance? hletter
        rw [(Ascii.singleton hlt).byteSize] at hnext
        simp only [hescape]
        rw [show 1 = [x].length from rfl, hnext, past_past]
        rfl

/-- If reading goes on alike behind an escape, it goes on alike in front of it. -/
theorem readsBody_escape (h : c.Valid) {rest : List Char} (hr : c.rest = '\\' :: rest)
    (hnext : ∀ {front more : List Char} (decoded : List Char), c.rest = front ++ more → front ≠ [] → (c.past front).ReadsBody decoded)
    (decoded : List Char) : c.ReadsBody decoded := by
  rw [Cursor.ReadsBody, ByteCursor.quotedBody, h.peek?, hr]
  simp only [List.head?_cons, if_true]
  rw [if_neg (by decide), h.escape hr, Quoted.scanBody, if_neg (by decide), if_pos rfl]
  cases hescape : Quoted.escape rest with
  | error fault => rfl
  | ok r =>
    obtain ⟨y, k⟩ := r
    have hfront : c.rest = ('\\' :: rest.take k) ++ rest.drop k := by
      rw [hr, List.cons_append, List.take_append_drop]
    have hlt := h.left_past_lt hfront (List.cons_ne_nil _ _)
    have hbody := (hnext (decoded ++ [y]) hfront (List.cons_ne_nil _ _)).behind hfront
    have hbehind := Quoted.scanBody_behind (y :: decoded.reverse) [] ((rest.take k).reverse ++ ['\\']) (rest.drop k)
    rw [List.nil_append] at hbehind
    rw [List.reverse_append] at hbody
    simp only [ByteOutcome.of, Except.map, hlt, if_true]
    rw [hbody, hbehind, List.reverse_append, List.reverse_reverse]
    rfl

/-- So it does in front of characters that stand for themselves. -/
theorem readsBody_plain (h : c.Valid) {x : Char} {rest : List Char} (hr : c.rest = x :: rest) (hquote : x ≠ '"')
    (hslash : x ≠ '\\')
    (hnext : ∀ {front more : List Char} (decoded : List Char), c.rest = front ++ more → front ≠ [] → (c.past front).ReadsBody decoded)
    (decoded : List Char) : c.ReadsBody decoded := by
  have hsplit := (List.takeWhile_append_dropWhile (p := fun y => y ≠ '"' && y ≠ '\\') (l := c.rest)).symm
  have hplain : ∀ y ∈ c.rest.takeWhile (fun y => y ≠ '"' && y ≠ '\\'), y ≠ '"' ∧ y ≠ '\\' := by
    intro y hy
    simpa using List.all_eq_true.mp List.all_takeWhile y hy
  have hne : c.rest.takeWhile (fun y => y ≠ '"' && y ≠ '\\') ≠ [] := by
    rw [hr, List.takeWhile_cons_of_pos (by simp [hquote, hslash])]
    exact List.cons_ne_nil _ _
  have hlt := h.left_past_lt hsplit hne
  have hbody := (hnext (decoded ++ c.rest.takeWhile fun y => y ≠ '"' && y ≠ '\\') hsplit hne).behind hsplit
  rw [Cursor.ReadsBody, ByteCursor.quotedBody, h.peek?, hr]
  simp only [List.head?_cons]
  rw [if_neg hquote, if_neg hslash, h.takeWhile?, ← hr]
  simp only [hlt, if_true, String.toList_ofList]
  rw [hbody, List.reverse_append, ← Quoted.scanBody_plain hplain, ← hsplit]

theorem readsBody (h : c.Valid) (decoded : List Char) : c.ReadsBody decoded := by
  induction hleft : c.bytes.left using Nat.strongRecOn generalizing c decoded with
  | ind n ih =>
    subst hleft
    have hnext {front more : List Char} (decoded : List Char) (hr : c.rest = front ++ more) (hne : front ≠ []) :
        (c.past front).ReadsBody decoded := ih _ (h.left_past_lt hr hne) (h.past hr) decoded rfl
    cases hr : c.rest with
    | nil =>
      rw [Cursor.ReadsBody, ByteCursor.quotedBody, h.peek?, hr, Quoted.scanBody, List.reverse_nil, Cursor.quotedOutcome,
        ← (Cursor.Reads.refl c).eq_past]
      rfl
    | cons x rest =>
      by_cases hquote : x = '"'
      · subst hquote
        have hfront : c.rest = ['"'] ++ rest := hr
        have hadvance : c.bytes.advance? 1 = some (c.past ['"']).bytes := h.advance? hfront
        rw [Cursor.ReadsBody, ByteCursor.quotedBody, h.peek?, hr]
        simp only [List.head?_cons, if_true]
        rw [hadvance, Option.bind_some, (h.past hfront).lexeme, Quoted.scanBody, if_pos rfl, List.reverse_reverse]
        rfl
      · by_cases hslash : x = '\\'
        · subst hslash
          exact h.readsBody_escape hr hnext decoded
        · exact h.readsBody_plain hr hquote hslash hnext decoded

theorem quoted (h : c.Valid) : c.bytes.quoted = some (.of (Lexeme.quoted c)) := by
  have hquoted : Lexeme.quoted c = c.quotedOutcome (Quoted.scan c.rest) := by
    unfold Lexeme.quoted
    cases Quoted.scan c.rest <;> rfl
  simp only [ByteCursor.quoted, h.peek?, Option.bind_eq_bind, Option.bind_some, hquoted]
  by_cases hfirst : c.rest.head? = some '"'
  · obtain ⟨rest, hr⟩ := List.head?_eq_some_iff.mp hfirst
    have hfront : c.rest = ['"'] ++ rest := hr
    have hadvance : c.bytes.advance? 1 = some (c.past ['"']).bytes := h.advance? hfront
    have hscan : Quoted.scan ('"' :: rest) = (Quoted.scanBody [] [] rest).behind ['"'] := Quoted.scanBody_behind [] [] ['"'] rest
    have hbody := ((h.past hfront).readsBody []).behind hfront
    rw [if_pos hfirst, hadvance, Option.bind_some, hbody, hr, hscan]
    rfl
  · rw [if_neg hfirst, Quoted.scan_unopened hfirst]
    rfl

end Cursor.Valid

/-! ### All lexemes -/

/-- The lexemes of the grammar, with the type of what they stand for. -/
inductive Lexeme.Kind : Type → Type where
  | token (t : Token) : Kind Unit
  | name : Kind String
  | number : Kind Binary64
  | quoted : Kind String
  | endOfInput : Kind Unit

namespace Lexeme.Kind

/-- Reads a lexeme of the kind. -/
def read : Kind α → Lexeme α
  | token t => Lexeme.token t
  | name => Lexeme.name
  | number => Lexeme.number
  | quoted => Lexeme.quoted
  | endOfInput => Lexeme.endOfInput

/-- Reads a lexeme of the kind by bytes. -/
def readBytes : Kind α → ByteCursor → Option (ByteOutcome α)
  | token t => ByteCursor.token t
  | name => ByteCursor.name
  | number => ByteCursor.number
  | quoted => ByteCursor.quoted
  | endOfInput => ByteCursor.endOfInput

/-- By bytes a lexeme is read as by characters: no slice is missing, and all offsets and places are the same. -/
theorem readBytes_eq (h : c.Valid) (kind : Kind α) : kind.readBytes c.bytes = some (.of (kind.read c)) := by
  cases kind with
  | token t => exact h.token t
  | name => exact h.name
  | number => exact h.number
  | quoted => exact h.quoted
  | endOfInput => exact h.endOfInput

end Lexeme.Kind

end RequestDoc

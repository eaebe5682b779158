import RequestDoc.Proofs.Text.Bytes
import RequestDoc.Text.Quoted.Body

/-!
Decoding quoted text one character at a time. A decoder sees one character after the other and keeps what it has decoded,
whether it stands behind a backslash, and the digits of a long escape that it is in. It comes to what scanning in pieces
comes to: it ends at the same quote with the same text, or stops with the same fault, which stands where the quoted text
that was started cannot go on.
-/

namespace RequestDoc.Quoted

/-! ### The decoder -/

/-- The hexadecimal digits and their values. -/
def hexForms : List (Char × Nat) :=
  [('0', 0), ('1', 1), ('2', 2), ('3', 3), ('4', 4), ('5', 5), ('6', 6), ('7', 7), ('8', 8), ('9', 9),
    ('a', 10), ('b', 11), ('c', 12), ('d', 13), ('e', 14), ('f', 15),
    ('A', 10), ('B', 11), ('C', 12), ('D', 13), ('E', 14), ('F', 15)]

/-- What a decoder knows between two characters of a quoted text. -/
inductive Decoder where
  | unopened
  | between (decoded : List Char)
  | escaped (decoded : List Char)
  | digits (decoded : List Char) (count value : Nat)

/-- What a decoder makes of one more character: it goes on, ends with the decoded text, or stops. -/
inductive Decoder.Step where
  | goesOn (next : Decoder)
  | ends (decoded : List Char)
  | stops (fault : Fault)

namespace Decoder

/-- One more character. -/
def take (x : Char) : Decoder → Step
  | unopened => if x = '"' then .goesOn (between []) else .stops .unopened
  | between decoded =>
    if x = '"' then .ends decoded
    else if x = '\\' then .goesOn (escaped decoded)
    else .goesOn (between (decoded ++ [x]))
  | escaped decoded =>
    match shortForms.lookup x with
    | some y => .goesOn (between (decoded ++ [y]))
    | none => if x = 'u' then .goesOn (digits decoded 0 0) else .stops .escape
  | digits decoded count value =>
    match hexForms.lookup x with
    | none => .stops .hexDigits
    | some digit =>
      let value := value * 16 + digit
      if count < 3 then .goesOn (digits decoded (count + 1) value)
      else if 0xD800 ≤ value ∧ value ≤ 0xDFFF then .stops .surrogate
      else .goesOn (between (decoded ++ [Char.ofNat value]))

/-- Why no quoted text ends here. -/
def missing : Decoder → Fault
  | unopened => .unopened
  | between _ => .unclosed
  | escaped _ => .escape
  | digits .. => .hexDigits

/-- How many characters of a long escape were read, its backslash left aside. -/
def inEscape : Decoder → Nat
  | digits _ count _ => count + 1
  | _ => 0

/-- Where a decoder stops that has read the characters: behind all of them, or behind the backslash of the long escape. -/
def stopsBehind (s : Decoder) (read : List Char) : List Char :=
  read.take (read.length - s.inEscape)

/-- What comes of the characters that are left, with `read` read before. -/
def run (s : Decoder) (read : List Char) : List Char → Outcome
  | [] => .broken s.missing (s.stopsBehind read)
  | x :: rest =>
    match s.take x with
    | .goesOn next => next.run (read ++ [x]) rest
    | .ends decoded => .closed decoded (read ++ [x])
    | .stops fault => .broken fault (s.stopsBehind read)

end Decoder

/-- Decodes a quoted text at the start of a text. -/
def decode (text : List Char) : Outcome :=
  Decoder.unopened.run [] text

/-! ### Decoding and scanning -/

namespace Decoder

variable {decoded read rest : List Char}

theorem lookup_shortForms (x : Char) : shortForms.lookup x = shortEscape? x := by
  unfold shortEscape?
  split
  case h_9 hne1 hne2 hne3 hne4 hne5 hne6 hne7 hne8 =>
    rw [List.lookup_eq_none_iff]
    intro form hform
    simp only [shortForms, List.mem_cons, List.not_mem_nil, or_false] at hform
    rcases hform with rfl | rfl | rfl | rfl | rfl | rfl | rfl | rfl <;> simpa
  all_goals rfl

theorem lookup_hexForms (x : Char) : hexForms.lookup x = Character.hexValue? x := by
  have hascii : ∀ n < 128, hexForms.lookup (Char.ofNat n) = Character.hexValue? (Char.ofNat n) := by decide
  by_cases hx : x.toNat < 128
  · rw [← Char.ofNat_toNat x]
    exact hascii _ hx
  · have hvalue : Character.hexValue? x = none := by
      cases h : Character.hexValue? x with
      | none => rfl
      | some v => exact absurd (encodes_hex.char_lt (by rw [h]; rfl)) hx
    have hforms : ∀ form ∈ hexForms, form.1.toNat < 128 := by decide
    rw [hvalue, List.lookup_eq_none_iff]
    intro form hform
    rw [bne_iff_ne]
    rintro rfl
    exact hx (hforms form hform)

theorem stopsBehind_append (s : Decoder) (read more : List Char) (h : s.inEscape = more.length) :
    s.stopsBehind (read ++ more) = read := by
  rw [stopsBehind, h, List.length_append, Nat.add_sub_cancel, List.take_left]

theorem stopsBehind_of_zero (s : Decoder) (read : List Char) (h : s.inEscape = 0) : s.stopsBehind read = read := by
  rw [stopsBehind, h, Nat.sub_zero, List.take_length]

/-- The number that hexadecimal digits write, `missing` of which are still to come behind digits with a value. -/
def hexFrom? : Nat → Nat → List Char → Option Nat
  | 0, value, _ => some value
  | _ + 1, _, [] => none
  | missing + 1, value, x :: rest =>
    (Character.hexValue? x).bind fun digit => hexFrom? missing (value * 16 + digit) rest

theorem hexNumber?_eq_hexFrom? (cs : List Char) : hexNumber? cs = hexFrom? 4 0 cs := by
  unfold hexNumber?
  split
  · simp only [hexFrom?, Nat.zero_mul, Nat.zero_add]
    rfl
  next hshort =>
    rcases cs with _ | ⟨a, _ | ⟨b, _ | ⟨c, _ | ⟨d, cs⟩⟩⟩⟩
    case cons.cons.cons.cons => exact absurd rfl (hshort a b c d cs)
    all_goals simp [hexFrom?]

/-- Digits are taken until the number is whole. -/
theorem run_digits {count missing value : Nat} {more : List Char} (hcount : count + missing = 3)
    (hmore : more.length = count + 1) :
    (digits decoded count value).run (read ++ more) rest =
      match hexFrom? (missing + 1) value rest with
      | none => .broken .hexDigits read
      | some n =>
        if 0xD800 ≤ n ∧ n ≤ 0xDFFF then .broken .surrogate read
        else (between (decoded ++ [Char.ofNat n])).run (read ++ more ++ rest.take (missing + 1))
          (rest.drop (missing + 1)) := by
  have hbehind : ∀ value, (digits decoded count value).stopsBehind (read ++ more) = read := fun value =>
    stopsBehind_append _ _ _ hmore.symm
  induction missing generalizing count value more rest with
  | zero =>
    rcases rest with _ | ⟨x, rest⟩
    · rw [run, hbehind]
      rfl
    simp only [run, take, hbehind, hexFrom?, lookup_hexForms]
    cases Character.hexValue? x with
    | none => rfl
    | some digit =>
      simp only [if_neg (show ¬count < 3 by omega), Option.bind_some]
      by_cases hs : 0xD800 ≤ value * 16 + digit ∧ value * 16 + digit ≤ 0xDFFF
      · simp only [if_pos hs]
      · simp only [if_neg hs]
        rfl
  | succ missing ih =>
    rcases rest with _ | ⟨x, rest⟩
    · rw [run, hbehind]
      rfl
    rw [run, take, hexFrom?, lookup_hexForms]
    cases Character.hexValue? x with
    | none => simp only [hbehind, Option.bind_none]
    | some digit =>
      have hlength : (more ++ [x]).length = count + 1 + 1 := by rw [List.length_append, hmore]; rfl
      simp only [if_pos (show count < 3 by omega), Option.bind_some, List.append_assoc]
      rw [ih (by omega) hlength fun _ => stopsBehind_append _ _ _ hlength.symm]
      simp only [List.append_assoc, List.singleton_append, List.take_succ_cons, List.drop_succ_cons]

/-- Behind a backslash an escape is taken as a whole. -/
theorem run_escaped :
    (escaped decoded).run read rest =
      match escape rest with
      | .error fault => .broken fault read
      | .ok (x, size) => (between (decoded ++ [x])).run (read ++ rest.take size) (rest.drop size) := by
  have hbehind : (escaped decoded).stopsBehind read = read := stopsBehind_of_zero _ _ rfl
  rcases rest with _ | ⟨x, rest⟩
  · rw [run, hbehind]
    rfl
  rw [run, take, lookup_shortForms, escape]
  cases shortEscape? x with
  | some y => rfl
  | none =>
    by_cases hu : x = 'u'
    · simp only [if_pos hu]
      rw [run_digits (show 0 + 3 = 3 from rfl) (show [x].length = 0 + 1 from rfl), hexNumber?_eq_hexFrom?]
      cases hexFrom? 4 0 rest with
      | none => rfl
      | some n =>
        by_cases hs : 0xD800 ≤ n ∧ n ≤ 0xDFFF
        · simp only [if_pos hs]
        · simp only [if_neg hs, List.append_assoc]
          rfl
    · simp only [if_neg hu, hbehind]

/-- Between two characters, decoding on is scanning on. -/
theorem run_between (cs : List Char) (text read : List Char) :
    (between text.reverse).run read.reverse cs = scanBody text read cs := by
  fun_induction scanBody text read cs with
  | case1 text read => rw [run, stopsBehind_of_zero _ _ rfl]; rfl
  | case2 text read rest => rw [run, take, if_pos rfl, List.reverse_cons]
  | case3 text read rest fault hescape _ =>
    rw [run, take, if_neg (by decide), if_pos rfl]
    simp only [run_escaped, hescape, List.reverse_cons]
  | case4 text read rest x size hescape _ ih =>
    rw [run, take, if_neg (by decide), if_pos rfl]
    simp only [run_escaped, hescape, ← ih, List.reverse_cons, List.reverse_append, List.reverse_reverse]
  | case5 text read x rest hquote hbackslash ih =>
    rw [run, take, if_neg hquote, if_neg hbackslash]
    simp only [← ih, List.reverse_cons]

end Decoder

/-- Decoding one character at a time comes to what scanning in pieces comes to. -/
theorem decode_eq_scan (text : List Char) : decode text = scan text := by
  unfold decode scan
  split
  next rest => exact Decoder.run_between rest [] ['"']
  next hopen =>
    rcases text with _ | ⟨x, rest⟩
    · rfl
    · have hx : x ≠ '"' := fun h => hopen rest (by rw [h])
      rw [Decoder.run, Decoder.take, if_neg hx]
      rfl

end RequestDoc.Quoted

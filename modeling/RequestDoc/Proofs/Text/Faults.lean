import RequestDoc.Proofs.Text.Decoder

/-!
Where quoted text breaks off. A text breaks off at its start if no quote stands there, at its end if only whole pieces
follow the quote, and else behind the first backslash that starts no piece. What stands behind that backslash says which
fault it is.
-/

namespace RequestDoc.Quoted

/-! ### Faults -/

/-- Why no escape stands behind a backslash: no letter of an escape follows, no four digits follow the letter of a long
escape, or they write a surrogate. -/
inductive NoEscape : List Char → Fault → Prop where
  | letter {rest : List Char} :
      (∀ x ∈ rest.head?, x ≠ 'u' ∧ ∀ y, (x, y) ∉ shortForms) → NoEscape rest .escape
  | digits {rest : List Char} : hexNumber? rest = none → NoEscape ('u' :: rest) .hexDigits
  | surrogate {rest : List Char} {n : Nat} :
      hexNumber? rest = some n → 0xD800 ≤ n → n ≤ 0xDFFF → NoEscape ('u' :: rest) .surrogate

/-- Why a text starts with no quoted text, and the characters that were read until then. -/
inductive Breaks : List Char → Fault → List Char → Prop where
  | unopened {text : List Char} : text.head? ≠ some '"' → Breaks text .unopened []
  | unclosed {raw decoded : List Char} : Body raw decoded → Breaks ('"' :: raw) .unclosed ('"' :: raw)
  | behind {raw decoded rest : List Char} {fault : Fault} :
      Body raw decoded → NoEscape rest fault → Breaks ('"' :: (raw ++ '\\' :: rest)) fault ('"' :: (raw ++ ['\\']))

variable {text read raw decoded rest : List Char} {fault : Fault}

theorem escape_eq_error_iff : escape rest = .error fault ↔ NoEscape rest fault := by
  constructor
  · intro h
    rcases rest with _ | ⟨x, rest⟩
    · obtain rfl := Except.error.inj h
      exact .letter fun _ hx => nomatch hx
    rw [escape] at h
    cases hshort : shortEscape? x with
    | some y => simp only [hshort] at h; cases h
    | none =>
      simp only [hshort] at h
      by_cases hu : x = 'u'
      · subst hu
        rw [if_pos rfl] at h
        cases hn : hexNumber? rest with
        | none =>
          simp only [hn] at h
          obtain rfl := Except.error.inj h
          exact .digits hn
        | some n =>
          simp only [hn] at h
          by_cases hs : 0xD800 ≤ n ∧ n ≤ 0xDFFF
          · rw [if_pos hs] at h
            obtain rfl := Except.error.inj h
            exact .surrogate hn hs.1 hs.2
          · rw [if_neg hs] at h
            cases h
      · rw [if_neg hu] at h
        obtain rfl := Except.error.inj h
        refine .letter fun y hy => ?_
        obtain rfl := Option.some.inj hy
        exact ⟨hu, fun z hz => by rw [← shortEscape?_eq_some_iff, hshort] at hz; cases hz⟩
  · intro h
    cases h with
    | letter hletter =>
      rcases rest with _ | ⟨x, rest⟩
      · rfl
      obtain ⟨hu, hforms⟩ := hletter x rfl
      have hshort : shortEscape? x = none :=
        Option.eq_none_iff_forall_ne_some.mpr fun y hy => hforms y (shortEscape?_eq_some_iff.mp hy)
      simp only [escape, hshort, if_neg hu]
    | digits hn =>
      have hshort : shortEscape? 'u' = none := rfl
      simp only [escape, hshort, hn, if_true]
    | surrogate hn hlow hhigh =>
      have hshort : shortEscape? 'u' = none := rfl
      simp only [escape, hshort, hn, if_pos (And.intro hlow hhigh), if_true]

/-! ### Scanning on behind whole pieces -/

theorem scanBody_pieces (h : Body raw decoded) (text read rest : List Char) :
    scanBody text read (raw ++ rest) = scanBody (decoded.reverse ++ text) (raw.reverse ++ read) rest := by
  induction h generalizing text read with
  | nil => rfl
  | cons hs _ ih => rw [List.append_assoc, scanBody_append hs, ih]; simp

/-- Scanning breaks off at the end, or behind a backslash that starts no escape. -/
theorem scanBody_eq_broken {cs r : List Char} (h : scanBody text read cs = .broken fault r) :
    ∃ raw decoded, Body raw decoded ∧
      ((cs = raw ∧ fault = .unclosed ∧ r = read.reverse ++ raw) ∨
        ∃ rest, cs = raw ++ '\\' :: rest ∧ NoEscape rest fault ∧ r = read.reverse ++ (raw ++ ['\\'])) := by
  fun_induction scanBody text read cs with
  | case1 text read =>
    obtain ⟨rfl, rfl⟩ := Outcome.broken.inj h
    exact ⟨[], [], .nil, .inl ⟨rfl, rfl, (List.append_nil _).symm⟩⟩
  | case2 => cases h
  | case3 text read rest fault' hfault =>
    obtain ⟨rfl, rfl⟩ := Outcome.broken.inj h
    exact ⟨[], [], .nil, .inr ⟨rest, rfl, escape_eq_error_iff.mp hfault, List.reverse_cons⟩⟩
  | case4 text read rest x size hx _ ih =>
    obtain ⟨hsize, hstands⟩ := escape_eq_ok hx
    have hpiece := List.take_append_drop size rest
    obtain ⟨raw, decoded, hbody, ⟨hcs, rfl, rfl⟩ | ⟨more, hcs, hno, rfl⟩⟩ := ih h
    · exact ⟨_, _, .cons hstands hbody, .inl ⟨by rw [List.cons_append, ← hcs, hpiece], rfl, by simp⟩⟩
    · refine ⟨_, _, .cons hstands hbody, .inr ⟨more, ?_, hno, by simp⟩⟩
      rw [List.append_assoc, ← hcs, List.cons_append, hpiece]
  | case5 text read x rest hquote hbackslash ih =>
    obtain ⟨raw, decoded, hbody, ⟨rfl, rfl, rfl⟩ | ⟨more, rfl, hno, rfl⟩⟩ := ih h
    · exact ⟨_, _, .cons (.plain hquote hbackslash) hbody, .inl ⟨rfl, rfl, by simp⟩⟩
    · exact ⟨_, _, .cons (.plain hquote hbackslash) hbody, .inr ⟨more, rfl, hno, by simp⟩⟩

/-! ### What decoding comes to -/

theorem decode_eq_closed_iff :
    decode text = .closed decoded read ↔
      ∃ raw rest, Body raw decoded ∧ read = '"' :: (raw ++ ['"']) ∧ text = read ++ rest := by
  rw [decode_eq_scan]
  constructor
  · exact scan_eq_closed
  · rintro ⟨raw, rest, hbody, rfl, rfl⟩
    rw [List.cons_append, List.append_assoc, List.singleton_append]
    exact scan_body hbody rest

theorem decode_eq_broken_iff : decode text = .broken fault read ↔ Breaks text fault read := by
  rw [decode_eq_scan]
  constructor
  · intro h
    unfold scan at h
    split at h
    · obtain ⟨raw, decoded, hbody, ⟨rfl, rfl, rfl⟩ | ⟨rest, rfl, hno, rfl⟩⟩ := scanBody_eq_broken h
      · exact .unclosed hbody
      · exact .behind hbody hno
    next hopen =>
      obtain ⟨rfl, rfl⟩ := Outcome.broken.inj h
      refine .unopened fun hhead => ?_
      obtain ⟨rest, rfl⟩ := List.head?_eq_some_iff.mp hhead
      exact hopen rest rfl
  · intro h
    cases h with
    | unopened hhead =>
      unfold scan
      split
      · exact absurd rfl hhead
      · rfl
    | @unclosed raw decoded hbody =>
      have hpieces := scanBody_pieces hbody [] ['"'] []
      rw [List.append_nil] at hpieces
      rw [scan, hpieces, scanBody]
      simp
    | @behind raw decoded rest _ hbody hno =>
      rw [scan, scanBody_pieces hbody, scanBody, if_neg (by decide), if_pos rfl, escape_eq_error_iff.mpr hno]
      simp

end RequestDoc.Quoted

import RequestDoc.Text.Quoted

/-!
What stands between quotes. The characters between the quotes are pieces, each of which stands for one
character. A text is read exactly if it is quoted in this sense, and it is what the pieces stand for. What
is written stands for the text that was written.
-/

namespace RequestDoc.Quoted

/-! ### What stands between the quotes -/

/-- The letters of the short escapes and the characters that they stand for. -/
def shortForms : List (Char × Char) :=
  [('\\', '\\'), ('/', '/'), ('"', '"'), ('b', '\x08'), ('f', '\x0c'), ('n', '\n'), ('r', '\r'), ('t', '\t')]

/-- A piece of quoted text stands for a character: a character other than the quote and the backslash
for itself, a short escape for what its letter says, and a long escape for its code point. -/
inductive Stands : List Char → Char → Prop where
  | plain {c : Char} : c ≠ '"' → c ≠ '\\' → Stands [c] c
  | short {letter c : Char} : (letter, c) ∈ shortForms → Stands ['\\', letter] c
  | long {a b c d : Char} {n : Nat} :
      hexNumber? [a, b, c, d] = some n → ¬(0xD800 ≤ n ∧ n ≤ 0xDFFF) →
      Stands ['\\', 'u', a, b, c, d] (Char.ofNat n)

/-- The characters between the quotes stand for a text, piece by piece. -/
inductive Body : List Char → List Char → Prop where
  | nil : Body [] []
  | cons {piece raw text : List Char} {c : Char} :
      Stands piece c → Body raw text → Body (piece ++ raw) (c :: text)

theorem shortEscape?_eq_some_iff {letter c : Char} :
    shortEscape? letter = some c ↔ (letter, c) ∈ shortForms := by
  constructor
  · intro h
    unfold shortEscape? at h
    split at h <;> simp_all [shortForms, eq_comm]
  · intro h
    simp only [shortForms, List.mem_cons, Prod.mk.injEq, List.not_mem_nil, or_false] at h
    rcases h with h | h | h | h | h | h | h | h <;> obtain ⟨rfl, rfl⟩ := h <;> rfl

/-- An escape that is read is a piece that stands for what was read. -/
theorem escape_eq_ok {cs : List Char} {c : Char} {n : Nat} (h : escape cs = .ok (c, n)) :
    n ≤ cs.length ∧ Stands ('\\' :: cs.take n) c := by
  unfold escape at h
  split at h
  · cases h
  next letter rest =>
    split at h
    next d hd =>
      obtain ⟨rfl, rfl⟩ : d = c ∧ 1 = n := by simpa using h
      exact ⟨by simp, .short (shortEscape?_eq_some_iff.mp hd)⟩
    · split at h
      next hu =>
        subst hu
        split at h
        · cases h
        next k hk =>
          split at h
          · cases h
          next hs =>
            obtain ⟨rfl, rfl⟩ : Char.ofNat k = c ∧ 5 = n := by simpa using h
            rcases rest with _ | ⟨x, _ | ⟨y, _ | ⟨z, _ | ⟨w, rest⟩⟩⟩⟩
            · cases hk
            · cases hk
            · cases hk
            · cases hk
            · exact ⟨by simp, .long hk hs⟩
      · cases h

/-- A text that is read ends with a quote, and what stands before that quote stands for what was read. -/
theorem scanBody_eq_closed {text read cs t r : List Char} (h : scanBody text read cs = .closed t r) :
    ∃ raw decoded rest, Body raw decoded ∧ cs = raw ++ '"' :: rest ∧
      t = text.reverse ++ decoded ∧ r = read.reverse ++ raw ++ ['"'] := by
  fun_induction scanBody text read cs with
  | case1 => cases h
  | case2 text read rest =>
    obtain ⟨rfl, rfl⟩ := Outcome.closed.inj h
    exact ⟨[], [], rest, .nil, by simp, by simp, by simp⟩
  | case3 => cases h
  | case4 text read rest d n hd _ ih =>
    obtain ⟨raw, decoded, rest', hb, hrest, rfl, rfl⟩ := ih h
    obtain ⟨hn, hs⟩ := escape_eq_ok hd
    refine ⟨('\\' :: rest.take n) ++ raw, d :: decoded, rest', .cons hs hb, ?_, by simp, by simp⟩
    rw [List.append_assoc, ← hrest, List.cons_append, List.take_append_drop]
  | case5 text read c rest hq hb ih =>
    obtain ⟨raw, decoded, rest', hb', rfl, rfl, rfl⟩ := ih h
    exact ⟨[c] ++ raw, c :: decoded, rest', .cons (.plain hq hb) hb', by simp, by simp, by simp⟩

/-- A quoted text that is read stands at the start of the text, with what its body stands for. -/
theorem scan_eq_closed {cs t r : List Char} (h : scan cs = .closed t r) :
    ∃ raw rest, Body raw t ∧ r = '"' :: (raw ++ ['"']) ∧ cs = r ++ rest := by
  unfold scan at h
  split at h
  next rest =>
    obtain ⟨raw, decoded, rest', hb, rfl, rfl, rfl⟩ := scanBody_eq_closed h
    exact ⟨raw, rest', by simpa using hb, by simp, by simp⟩
  · cases h

/-! ### Whatever stands between quotes is read -/

theorem hexNumber?_append {a b c d : Char} (rest : List Char) :
    hexNumber? (a :: b :: c :: d :: rest) = hexNumber? [a, b, c, d] := rfl

/-- A piece is read as the character that it stands for. -/
theorem scanBody_append {piece : List Char} {c : Char} (h : Stands piece c) (text read rest : List Char) :
    scanBody text read (piece ++ rest) = scanBody (c :: text) (piece.reverse ++ read) rest := by
  cases h with
  | plain hq hb => rw [List.singleton_append, scanBody, if_neg hq, if_neg hb]; rfl
  | @short letter _ hl =>
    have he : escape (letter :: rest) = .ok (c, 1) := by
      rw [escape, shortEscape?_eq_some_iff.mpr hl]
    rw [List.cons_append, scanBody, if_neg (by decide), if_pos rfl, List.singleton_append, he]
    rfl
  | @long x y z w n hn hs =>
    have he : escape ('u' :: x :: y :: z :: w :: rest) = .ok (Char.ofNat n, 5) := by
      have hu : shortEscape? 'u' = none := rfl
      simp only [escape, hu, hexNumber?_append, hn, if_neg hs, if_true]
    rw [List.cons_append, scanBody, if_neg (by decide), if_pos rfl]
    simp only [List.cons_append, List.nil_append, he]
    rfl

theorem scanBody_body {raw decoded : List Char} (h : Body raw decoded) (text read rest : List Char) :
    scanBody text read (raw ++ '"' :: rest) =
      .closed (text.reverse ++ decoded) (read.reverse ++ raw ++ ['"']) := by
  induction h generalizing text read with
  | nil => rw [List.nil_append, scanBody, if_pos rfl]; simp
  | cons hs _ ih => rw [List.append_assoc, scanBody_append hs, ih]; simp

/-- A body between quotes is read, whatever follows. -/
theorem scan_body {raw text : List Char} (h : Body raw text) (rest : List Char) :
    scan ('"' :: (raw ++ '"' :: rest)) = .closed text ('"' :: (raw ++ ['"'])) := by
  rw [scan, scanBody_body h]
  simp

/-! ### What is written stands for the text -/

theorem hexNumber?_hexDigits {n : Nat} (h : n < 0xA0) : hexNumber? (hexDigits n) = some n := by
  revert n
  decide +kernel

theorem control_lt {c : Char} (h : Character.isControl c = true) : c.toNat < 0xA0 := by
  simp only [Character.isControl, Bool.or_eq_true, Bool.and_eq_true, decide_eq_true_eq] at h
  omega

theorem stands_encodeChar (c : Char) : Stands (encodeChar c) c := by
  unfold encodeChar
  split
  case h_8 hq hb _ _ _ _ _ =>
    split
    next hc =>
      have hlt := control_lt hc
      have hlong := Stands.long (hexNumber?_hexDigits hlt) (by omega)
      rwa [Char.ofNat_toNat] at hlong
    · exact .plain hq hb
  all_goals exact .short (by decide)

theorem body_encodeBody (cs : List Char) : Body (encodeBody cs) cs := by
  induction cs with
  | nil => exact .nil
  | cons c cs ih =>
    rw [encodeBody, List.flatMap_cons]
    exact .cons (stands_encodeChar c) ih

/-- Writing a text and reading it gives the text, whatever follows. -/
theorem scan_encode (cs rest : List Char) : scan (encode cs ++ rest) = .closed cs (encode cs) := by
  rw [encode, List.cons_append, List.append_assoc, List.singleton_append]
  exact scan_body (body_encodeBody cs) rest

end RequestDoc.Quoted

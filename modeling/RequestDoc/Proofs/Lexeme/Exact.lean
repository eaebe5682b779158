import RequestDoc.Grammar.Definition
import RequestDoc.Proofs.Cursor.Reads

/-!
When lexemes are read. A word is read exactly if it comes next and does not go on behind its end: no name
goes on behind a keyword or a name, and no numeral behind a numeral. A lexeme that is not read fails right
where reading it started, quoted texts excepted, which fail inside.
-/

namespace RequestDoc

/-! ### Where words end -/

namespace Character

theorem isBlank_of_continuesName {x : Char} (h : continuesName x = true) : isBlank x = false := by
  have hx : x.toNat = 95 ∨ 48 ≤ x.toNat ∧ x.toNat ≤ 57 ∨ 65 ≤ x.toNat ∧ x.toNat ≤ 90 ∨
      97 ≤ x.toNat ∧ x.toNat ≤ 122 := by
    have hclass : (decide (x = '_') || ((decide ('A'.val ≤ x.val ∧ x.val ≤ 'Z'.val) ||
        decide ('a'.val ≤ x.val) && decide (x.val ≤ 'z'.val)) ||
          decide ('0'.val ≤ x.val) && decide (x.val ≤ '9'.val))) = true := h
    simp only [Bool.or_eq_true, Bool.and_eq_true, decide_eq_true_eq, UInt32.le_iff_toNat_le] at hclass
    rcases hclass with rfl | (⟨h1, h2⟩ | ⟨h1, h2⟩) | ⟨h1, h2⟩
    · exact Or.inl rfl
    · exact Or.inr (Or.inr (Or.inl ⟨h1, h2⟩))
    · exact Or.inr (Or.inr (Or.inr ⟨h1, h2⟩))
    · exact Or.inr (Or.inl ⟨h1, h2⟩)
  simp [isBlank, blankRanges]
  omega

theorem continuesName_of_isDigit {x : Char} (h : x.isDigit = true) : continuesName x = true := by
  simp [continuesName, Char.isAlphanum, h]

end Character

namespace Grammar

/-- No word goes on into the text, and no blank starts it. -/
def Apart (text : List Char) : Prop :=
  ∀ x ∈ text.head?, Character.isBlank x = false ∧ Character.continuesName x = false ∧ x ≠ '.'

theorem apart_nil : Apart [] := by
  simp [Apart]

theorem apart_of_head {text : List Char} {x : Char} (hx : text.head? = some x)
    (h : Character.isBlank x = false ∧ Character.continuesName x = false ∧ x ≠ '.') : Apart text := by
  intro y hy
  obtain rfl := Option.some.inj (hx.symm.trans hy)
  exact h

theorem Apart.flush {text : List Char} (h : Apart text) : Flush text :=
  fun x hx => (h x hx).1

/-- No name goes on into a blank. -/
theorem nameEnds_blank {w : List Char} (hw : Blanks w) (hne : w ≠ []) (rest : List Char) : NameEnds (w ++ rest) := by
  intro x hx
  cases w with
  | nil => exact absurd rfl hne
  | cons y w =>
    obtain rfl : y = x := by simpa using hx
    have hy : Character.isBlank y = true := hw y List.mem_cons_self
    by_cases hc : Character.continuesName y = true
    · rw [Character.isBlank_of_continuesName hc] at hy
      cases hy
    · simpa using hc

theorem Apart.nameEnds {w rest : List Char} (h : Apart rest) (hw : Blanks w) : NameEnds (w ++ rest) := by
  cases w with
  | nil => exact fun x hx => (h x hx).2.1
  | cons y w => exact nameEnds_blank hw (List.cons_ne_nil y w) rest

theorem numeralEnds_of_nameEnds {text : List Char} (h : NameEnds text) (hdot : ∀ x ∈ text.head?, x ≠ '.') :
    Numeral.Ends text := by
  intro x hx
  have hc := h x hx
  refine ⟨?_, hdot x hx, ?_, ?_⟩
  · by_cases hd : x.isDigit = true
    · rw [Character.continuesName_of_isDigit hd] at hc
      cases hc
    · simpa using hd
  · rintro rfl
    exact absurd hc (by decide)
  · rintro rfl
    exact absurd hc (by decide)

theorem Apart.numeralEnds {w rest : List Char} (h : Apart rest) (hw : Blanks w) : Numeral.Ends (w ++ rest) := by
  refine numeralEnds_of_nameEnds (h.nameEnds hw) fun x hx => ?_
  cases w with
  | nil => exact (h x hx).2.2
  | cons y w =>
    obtain rfl : y = x := by simpa using hx
    rintro rfl
    exact absurd (hw '.' List.mem_cons_self) (by decide)

end Grammar

open Grammar

/-! ### Tokens -/

namespace Token

theorem text_ne_nil (t : Token) : t.text.toList ≠ [] := by
  cases t <;> decide

end Token

theorem head?_punctuation {t : Token} {text : List Char} (ht : Punctuation t text) (rest : List Char) :
    (text ++ rest).head? = t.text.toList.head? := by
  obtain ⟨w, -, rfl⟩ := ht
  rw [List.append_assoc, List.head?_append, List.head?_eq_some_head t.text_ne_nil, Option.some_or]

theorem apart_punctuation {t : Token} (hk : t.isKeyword = false) {text : List Char} (ht : Punctuation t text)
    (rest : List Char) : Apart (text ++ rest) := by
  intro x hx
  rw [head?_punctuation ht] at hx
  cases t with
  | trueWord | falseWord | nullWord | query | mutation => cases hk
  | _ =>
    obtain rfl := Option.some.inj hx
    decide

namespace Lexeme

variable {c d : Cursor}

theorem nameEnds_iff {text : List Char} : text.head?.any Character.continuesName = false ↔ NameEnds text := by
  cases text with
  | nil => simp [NameEnds]
  | cons x text => simp [NameEnds]

/-- A token is read exactly if it comes next; a keyword also has to end there. -/
theorem token_eq_ok_iff {t : Token} :
    token t c = .ok ((), d) ↔
      c.Passes t.text.toList d ∧ (t.isKeyword = true → NameEnds (c.rest.drop t.text.toList.length)) := by
  constructor
  · intro h
    refine ⟨token_eq_ok h, fun hk => ?_⟩
    simp only [token] at h
    split at h
    next hp =>
      rw [hk, Bool.true_and, Bool.and_eq_true, Bool.not_eq_true'] at hp
      exact nameEnds_iff.mp hp.2
    · cases h
  · rintro ⟨⟨⟨rest, hr⟩, rfl⟩, hk⟩
    have hp : t.text.toList.isPrefixOf c.rest = true := List.isPrefixOf_iff_prefix.mpr ⟨rest, hr.symm⟩
    have hend : (t.isKeyword && (c.past t.text.toList).rest.head?.any Character.continuesName) = false := by
      cases hkw : t.isKeyword with
      | false => rfl
      | true => exact nameEnds_iff.mpr (hk hkw)
    simp only [token, hp, hend, Bool.not_false, Bool.and_self, if_true]

theorem token_eq_error {t : Token} {m : Mismatch} (h : token t c = .error m) : m = c.mismatch t.label := by
  simp only [token] at h
  split at h
  · cases h
  · exact (Except.error.inj h).symm

theorem head?_of_token {t : Token} (h : token t c = .ok ((), d)) : c.rest.head? = t.text.toList.head? := by
  obtain ⟨⟨rest, hr⟩, -⟩ := token_eq_ok h
  rw [hr, List.head?_append, List.head?_eq_some_head t.text_ne_nil, Option.some_or]

theorem token_refuses {t : Token} (h : c.rest.head? ≠ t.text.toList.head?) :
    token t c = .error (c.mismatch t.label) := by
  cases ht : token t c with
  | error m => rw [token_eq_error ht]
  | ok r =>
    obtain ⟨⟨⟩, d⟩ := r
    exact absurd (head?_of_token ht) h

/-- A mark is read with the blanks behind it, whatever follows them. -/
theorem mark_of_reads {t : Token} {text : List Char} (hk : t.isKeyword = false) (ht : Punctuation t text)
    (h : c.Reads text d) (hd : Flush d.rest) : token t c = .ok ((), d) := by
  refine token_eq_ok_iff.mpr ⟨h.passes ht hd, fun hkw => ?_⟩
  rw [hk] at hkw
  cases hkw

/-- A keyword with blanks behind it is read if it ends there. -/
theorem keyword_of_reads {t : Token} {w : List Char} (hw : Blanks w) (h : c.Reads (t.text.toList ++ w) d)
    (hd : Flush d.rest) (hends : NameEnds (w ++ d.rest)) : token t c = .ok ((), d) := by
  refine token_eq_ok_iff.mpr ⟨h.passes ⟨w, hw, rfl⟩ hd, fun _ => ?_⟩
  rw [h.rest, List.append_assoc, List.drop_left]
  exact hends

theorem word_of_reads {t : Token} {text : List Char} (ht : Punctuation t text) (h : c.Reads text d)
    (hd : Apart d.rest) : token t c = .ok ((), d) := by
  obtain ⟨w, hw, rfl⟩ := ht
  exact keyword_of_reads hw h hd.flush (hd.nameEnds hw)

theorem keyword_refuses {t : Token} (hk : t.isKeyword = true) (h : ¬KeywordStarts t c.rest) :
    token t c = .error (c.mismatch t.label) := by
  cases ht : token t c with
  | error m => rw [token_eq_error ht]
  | ok r =>
    obtain ⟨⟨⟩, d⟩ := r
    obtain ⟨⟨⟨rest, hr⟩, -⟩, hends⟩ := token_eq_ok_iff.mp ht
    have hends := hends hk
    rw [hr, List.drop_left] at hends
    exact absurd ⟨rest, hr, hends⟩ h

/-! ### Names -/

theorem isName_of_all {x : Char} {xs : List Char} (hx : Character.startsName x = true)
    (hxs : xs.all Character.continuesName = true) : IsName (x :: xs) :=
  .mk hx (List.all_eq_true.mp hxs)

theorem takeWhile_name {name rest : List Char} (hn : IsName name) (hr : NameEnds rest) :
    (name ++ rest).takeWhile Character.continuesName = name := by
  have hall : ∀ x ∈ name, Character.continuesName x = true := by
    cases hn with
    | mk hx hxs =>
      intro y hy
      rcases List.mem_cons.mp hy with rfl | hy
      · exact Character.continuesName_of_startsName hx
      · exact hxs y hy
  rw [List.takeWhile_append_of_pos hall]
  cases rest with
  | nil => simp
  | cons x rest => rw [List.takeWhile_cons_of_neg (by simp [hr x rfl]), List.append_nil]

theorem isName_takeWhile {text : List Char} (h : text.head?.any Character.startsName = true) :
    IsName (text.takeWhile Character.continuesName) := by
  cases text with
  | nil => simp at h
  | cons x text =>
    have hx : Character.startsName x = true := by simpa using h
    rw [List.takeWhile_cons_of_pos (Character.continuesName_of_startsName hx)]
    exact .mk hx fun y hy => List.all_eq_true.mp List.all_takeWhile y hy

theorem nameEnds_dropWhile (text : List Char) : NameEnds (text.dropWhile Character.continuesName) := by
  intro x hx
  have := List.head?_dropWhile_not Character.continuesName text
  rw [Option.mem_def.mp hx] at this
  simpa using this

/-- A name is read exactly if it comes next and ends there. -/
theorem name_eq_ok_iff {s : String} :
    name c = .ok (s, d) ↔
      IsName s.toList ∧ c.Passes s.toList d ∧ NameEnds (c.rest.drop s.toList.length) := by
  constructor
  · intro h
    have hp := name_eq_ok h
    simp only [name] at h
    split at h
    next hstart =>
      obtain ⟨rfl, -⟩ := Prod.mk.inj (Except.ok.inj h)
      rw [String.toList_ofList] at hp ⊢
      refine ⟨isName_takeWhile hstart, hp, ?_⟩
      have hsplit : c.rest = c.rest.takeWhile Character.continuesName ++ c.rest.dropWhile Character.continuesName :=
        List.takeWhile_append_dropWhile.symm
      have hdrop : c.rest.drop (c.rest.takeWhile Character.continuesName).length =
          c.rest.dropWhile Character.continuesName := by
        conv => lhs; arg 2; rw [hsplit]
        rw [List.drop_left]
      rw [hdrop]
      exact nameEnds_dropWhile _
    · cases h
  · rintro ⟨hn, ⟨⟨rest, hr⟩, rfl⟩, hend⟩
    rw [hr, List.drop_left] at hend
    have htake : c.rest.takeWhile Character.continuesName = s.toList := by
      rw [hr, takeWhile_name hn hend]
    have hstart : c.rest.head?.any Character.startsName = true := by
      cases hn' : s.toList with
      | nil =>
        rw [hn'] at hn
        cases hn
      | cons x xs =>
        rw [hn'] at hn hr
        cases hn with
        | mk hx _ => simpa [hr] using hx
    simp only [name, hstart, htake, if_true, String.ofList_toList]

theorem name_eq_error {m : Mismatch} (h : name c = .error m) : m = c.mismatch "identifier" := by
  simp only [name] at h
  split at h
  · cases h
  · exact (Except.error.inj h).symm

theorem name_refuses (h : ∀ x ∈ c.rest.head?, Character.startsName x = false) :
    name c = .error (c.mismatch "identifier") := by
  have hstart : c.rest.head?.any Character.startsName = false := by
    cases hr : c.rest with
    | nil => rfl
    | cons x rest => simpa using h x (by rw [hr]; rfl)
  simp only [name, hstart, if_false, Bool.false_eq_true]

theorem name_of_reads {s : String} {text : List Char} (ht : Named text s) (h : c.Reads text d)
    (hd : Apart d.rest) : name c = .ok (s, d) := by
  refine name_eq_ok_iff.mpr ⟨ht.1, h.passes ht.2 hd.flush, ?_⟩
  obtain ⟨-, w, hw, rfl⟩ := ht
  rw [h.rest, List.append_assoc, List.drop_left]
  exact hd.nameEnds hw

theorem flush_named {text : List Char} {s : String} (ht : Named text s) (rest : List Char) : Flush (text ++ rest) := by
  obtain ⟨hn, w, -, rfl⟩ := ht
  cases hs : s.toList with
  | nil =>
    rw [hs] at hn
    cases hn
  | cons x xs =>
    rw [hs] at hn
    cases hn with
    | mk hx _ =>
      exact flush_cons (Character.isBlank_of_continuesName (Character.continuesName_of_startsName hx))

/-! ### Numbers -/

theorem number_of_reads {n : Numeral} {text : List Char} (hn : n.WellFormed) (ht : Spaced n.text text)
    (h : c.Reads text d) (hd : Apart d.rest) : number c = .ok (n.value, d) := by
  obtain ⟨-, hpast⟩ := h.passes ht hd.flush
  obtain ⟨w, hw, rfl⟩ := ht
  have hscan : Numeral.scan? c.rest = some (n, w ++ d.rest) := by
    rw [h.rest, List.append_assoc]
    exact Numeral.scan?_text_append hn (hd.numeralEnds hw)
  simp only [number, hscan, hpast]

theorem number_eq_error {m : Mismatch} (h : number c = .error m) : m = c.mismatch "number" := by
  unfold number at h
  split at h
  · cases h
  · exact (Except.error.inj h).symm

theorem numeral_starts {n : Numeral} (hn : n.WellFormed) :
    ∃ x xs, x.isDigit = true ∧ (n.text = x :: xs ∨ n.text = '-' :: x :: xs) := by
  obtain ⟨negative, whole, fraction, exponent⟩ := n
  obtain ⟨x, xs, rfl, hx⟩ : ∃ x xs, whole = x :: xs ∧ x.isDigit = true := by
    cases hn.whole with
    | zero => exact ⟨'0', [], rfl, rfl⟩
    | digits _ hd => exact ⟨_, _, rfl, hd _ List.mem_cons_self⟩
  cases negative with
  | true => exact ⟨x, _, hx, Or.inr rfl⟩
  | false => exact ⟨x, _, hx, Or.inl rfl⟩

theorem head?_numeral {n : Numeral} (hn : n.WellFormed) :
    ∃ x xs, n.text = x :: xs ∧ (x = '-' ∨ x.isDigit = true) := by
  obtain ⟨x, xs, hx, htext | htext⟩ := numeral_starts hn
  · exact ⟨x, xs, htext, Or.inr hx⟩
  · exact ⟨'-', x :: xs, htext, Or.inl rfl⟩

theorem number_refuses (h : ∀ x ∈ c.rest.head?, x ≠ '-' ∧ x.isDigit = false) :
    number c = .error (c.mismatch "number") := by
  cases hr : number c with
  | error m => rw [number_eq_error hr]
  | ok r =>
    obtain ⟨v, d⟩ := r
    obtain ⟨n, hn, -, ⟨rest, hrest⟩, -⟩ := number_eq_ok hr
    obtain ⟨x, xs, hx, hstart⟩ := head?_numeral hn
    obtain ⟨hminus, hdigit⟩ := h x (by rw [hrest, hx]; rfl)
    rcases hstart with hstart | hstart
    · exact absurd hstart hminus
    · rw [hstart] at hdigit
      cases hdigit

/-! ### Quoted texts -/

theorem scanBody_eq_broken {text read cs r : List Char} {fault : Quoted.Fault}
    (h : Quoted.scanBody text read cs = .broken fault r) : ∃ more, r = read.reverse ++ more ∧ more <+: cs := by
  fun_induction Quoted.scanBody text read cs with
  | case1 text read =>
    obtain ⟨rfl, rfl⟩ := Quoted.Outcome.broken.inj h
    exact ⟨[], (List.append_nil _).symm, List.nil_prefix⟩
  | case2 => cases h
  | case3 text read rest fault' hfault =>
    obtain ⟨rfl, rfl⟩ := Quoted.Outcome.broken.inj h
    exact ⟨['\\'], List.reverse_cons, rest, rfl⟩
  | case4 text read rest x n hx _ ih =>
    obtain ⟨more, rfl, after, hafter⟩ := ih h
    refine ⟨'\\' :: (rest.take n ++ more), by simp, after, ?_⟩
    rw [List.cons_append, List.append_assoc, hafter, List.take_append_drop]
  | case5 text read x rest _ _ ih =>
    obtain ⟨more, rfl, after, rfl⟩ := ih h
    exact ⟨x :: more, by simp, after, rfl⟩

theorem scan_eq_broken {cs r : List Char} {fault : Quoted.Fault} (h : Quoted.scan cs = .broken fault r) :
    r <+: cs := by
  unfold Quoted.scan at h
  split at h
  · obtain ⟨more, rfl, after, rfl⟩ := scanBody_eq_broken h
    exact ⟨after, rfl⟩
  · obtain ⟨-, rfl⟩ := Quoted.Outcome.broken.inj h
    exact List.nil_prefix

theorem quoted_eq_error {m : Mismatch} (h : quoted c = .error m) :
    ∃ read d label, c.Reads read d ∧ m = d.mismatch label := by
  unfold quoted at h
  split at h
  · cases h
  next fault read hs =>
    obtain ⟨rest, hr⟩ := scan_eq_broken hs
    exact ⟨read, _, fault.label, .of_rest hr.symm, (Except.error.inj h).symm⟩

theorem quoted_of_reads {key : String} {text : List Char} (ht : Key text key) (h : c.Reads text d)
    (hd : Flush d.rest) : quoted c = .ok (key, d) := by
  obtain ⟨raw, hb, hs⟩ := ht
  obtain ⟨⟨rest, hr⟩, rfl⟩ := h.passes hs hd
  have hscan : Quoted.scan c.rest = .closed key.toList ('"' :: (raw ++ ['"'])) := by
    rw [hr, List.cons_append, List.append_assoc, List.singleton_append]
    exact Quoted.scan_body hb rest
  simp only [quoted, hscan, String.ofList_toList]

theorem quoted_refuses (h : ∀ x ∈ c.rest.head?, x ≠ '"') : quoted c = .error (c.mismatch "string") := by
  have hscan : Quoted.scan c.rest = .broken .unopened [] := by
    unfold Quoted.scan
    split
    next rest hr => exact absurd rfl (h '"' (by rw [hr]; rfl))
    · rfl
  simp only [quoted, hscan]
  rfl

end Lexeme

end RequestDoc

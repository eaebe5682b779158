import RequestDoc.Number.Numeral.WellFormed
import RequestDoc.Text.Nesting
import RequestDoc.Text.Quoted.Body
import RequestDoc.Text.Spacing

/-!
Texts whose brackets are closed. Such a text leaves the brackets around it as they were, ends outside
quotes, and nests to the same depth wherever it stands. Words without quotes and brackets and quoted texts
nest to no depth, texts in a row to that of the deeper one, and brackets add one.
-/

namespace RequestDoc.Nesting

namespace State

/-- The state behind a text. -/
def after (s : State) (text : List Char) : State :=
  text.foldl next s

@[simp]
theorem after_nil (s : State) : s.after [] = s := rfl

@[simp]
theorem after_cons (s : State) (x : Char) (text : List Char) : s.after (x :: text) = (s.next x).after text := rfl

theorem after_append (s : State) (first second : List Char) :
    s.after (first ++ second) = (s.after first).after second :=
  List.foldl_append

theorem deepest_append (s : State) (first second : List Char) :
    s.deepest (first ++ second) = max (s.deepest first) ((s.after first).deepest second) := by
  induction first generalizing s with
  | nil =>
    have := s.level_le_deepest second
    simp only [List.nil_append, deepest, after_nil]
    omega
  | cons x first ih => simp only [List.cons_append, deepest, after_cons, ih, Nat.max_assoc]

/-- No more brackets are opened than there are characters. -/
theorem deepest_le (s : State) (text : List Char) : s.deepest text ≤ s.level + text.length := by
  induction text generalizing s with
  | nil => exact Nat.le_refl _
  | cons x text ih =>
    have hnext : (s.next x).level ≤ s.level + 1 := by
      unfold next
      simp only
      repeat' split
      all_goals omega
    have := ih (s.next x)
    simp only [deepest, List.length_cons]
    omega

end State

theorem deepest_le_length (text : List Char) : deepest text ≤ text.length := by
  have := State.initial.deepest_le text
  rwa [State.initial, Nat.zero_add] at this

/-- The text closes the brackets that it opens, and `n` of them are open in it at once. -/
def Closed (text : List Char) (n : Nat) : Prop :=
  ∀ level, (State.mk .outside level).after text = ⟨.outside, level⟩ ∧
    (State.mk .outside level).deepest text = level + n

theorem Closed.deepest_eq {text : List Char} {n : Nat} (h : Closed text n) : deepest text = n := by
  rw [deepest, State.initial, (h 0).2, Nat.zero_add]

theorem closed_nil : Closed [] 0 :=
  fun _ => ⟨rfl, rfl⟩

theorem Closed.append {first second : List Char} {m n : Nat} (h : Closed first m) (k : Closed second n) :
    Closed (first ++ second) (max m n) := by
  intro level
  obtain ⟨h1, h2⟩ := h level
  obtain ⟨k1, k2⟩ := k level
  constructor
  · rw [State.after_append, h1, k1]
  · rw [State.deepest_append, h1, h2, k2]
    omega

/-! ### Words -/

/-- Neither a quote nor a bracket stands in the text. -/
def Plain (text : List Char) : Prop :=
  ∀ x ∈ text, x ≠ '"' ∧ x ≠ '[' ∧ x ≠ '{' ∧ x ≠ ']' ∧ x ≠ '}'

instance (text : List Char) : Decidable (Plain text) :=
  List.decidableBAll (fun x => x ≠ '"' ∧ x ≠ '[' ∧ x ≠ '{' ∧ x ≠ ']' ∧ x ≠ '}') text

theorem Plain.append {first second : List Char} (h : Plain first) (k : Plain second) : Plain (first ++ second) := by
  intro x hx
  rcases List.mem_append.mp hx with hx | hx
  · exact h x hx
  · exact k x hx

theorem Plain.closed {text : List Char} (h : Plain text) : Closed text 0 := by
  intro level
  induction text with
  | nil => exact closed_nil level
  | cons x text ih =>
    obtain ⟨h1, h2, h3, h4, h5⟩ := h x List.mem_cons_self
    have hnext : (State.mk .outside level).next x = ⟨.outside, level⟩ := by
      simp [State.next, Side.next, h1, h2, h3, h4, h5]
    have ih := ih fun y hy => h y (List.mem_cons_of_mem x hy)
    simp only [State.after_cons, State.deepest, hnext, ih, Nat.add_zero, Nat.max_self, and_self]

theorem plain_blanks {w : List Char} (h : Blanks w) : Plain w := by
  intro x hx
  have := h x hx
  refine ⟨?_, ?_, ?_, ?_, ?_⟩ <;> rintro rfl <;> exact absurd this (by decide)

theorem plain_digits {text : List Char} (h : Numeral.Digits text) : Plain text := by
  intro x hx
  have := h x hx
  refine ⟨?_, ?_, ?_, ?_, ?_⟩ <;> rintro rfl <;> exact absurd this (by decide)

theorem plain_whole {text : List Char} (h : Numeral.Whole text) : Plain text := by
  cases h with
  | zero => simp [Plain]
  | digits _ hd => exact plain_digits hd

theorem plain_exponent {e : Numeral.Exponent} (h : e.WellFormed) : Plain e.text := by
  obtain ⟨mark, sign, digits⟩ := e
  have hmark : Plain [mark] := by
    rcases h.mark with hm | hm <;> simp_all [Plain]
  have hsign : Plain sign.toList := by
    rcases h.sign with hs | hs | hs <;> simp_all [Plain]
  exact hmark.append (hsign.append (plain_digits h.digits))

theorem plain_numeral {n : Numeral} (h : n.WellFormed) : Plain n.text := by
  obtain ⟨negative, whole, fraction, exponent⟩ := n
  have hminus : Plain (if negative then ['-'] else []) := by
    cases negative <;> simp [Plain]
  have hpoint : Plain ['.'] := by
    simp [Plain]
  have hfraction : Plain (Numeral.fractionText fraction) := by
    unfold Numeral.fractionText
    split
    · simp [Plain]
    · exact hpoint.append (plain_digits h.fraction)
  have hexponent : Plain ((exponent.map Numeral.Exponent.text).getD []) := by
    cases exponent with
    | none => simp [Plain]
    | some e => exact plain_exponent (h.exponent e rfl)
  exact ((hminus.append (plain_whole h.whole)).append hfraction).append hexponent

theorem closed_spaced {word text : List Char} {n : Nat} (h : Closed word n) (ht : Spaced word text) :
    Closed text n := by
  obtain ⟨w, hw, rfl⟩ := ht
  have := h.append (plain_blanks hw).closed
  rwa [Nat.max_zero] at this

/-! ### Quoted texts -/

/-- A piece of quoted text neither ends the quotes nor counts its brackets. -/
theorem after_stands {piece : List Char} {x : Char} (h : Quoted.Stands piece x) (level : Nat) :
    (State.mk .inside level).after piece = ⟨.inside, level⟩ ∧
      (State.mk .inside level).deepest piece = level := by
  cases h with
  | plain hq hb => simp [State.next, Side.next, State.deepest, hq, hb]
  | short _ => simp [State.next, Side.next, State.deepest]
  | @long a b c d n hn _ =>
    have hhex : ∀ y ∈ [a, b, c, d], (Character.hexValue? y).isSome = true := by
      simp only [Quoted.hexNumber?, Option.bind_eq_bind, Option.bind_eq_some_iff] at hn
      obtain ⟨_, ha, _, hb, _, hc, _, hd, -⟩ := hn
      simp [ha, hb, hc, hd]
    have hne : ∀ y ∈ [a, b, c, d], y ≠ '"' ∧ y ≠ '\\' := by
      intro y hy
      have := hhex y hy
      constructor <;> rintro rfl <;> exact absurd this (by decide)
    simp only [List.mem_cons, List.not_mem_nil, or_false, forall_eq_or_imp, forall_eq] at hne
    simp [State.next, Side.next, State.deepest, hne]

theorem after_body {raw text : List Char} (h : Quoted.Body raw text) (level : Nat) :
    (State.mk .inside level).after raw = ⟨.inside, level⟩ ∧ (State.mk .inside level).deepest raw = level := by
  induction h with
  | nil => exact ⟨rfl, rfl⟩
  | cons hs _ ih =>
    obtain ⟨h1, h2⟩ := after_stands hs level
    constructor
    · rw [State.after_append, h1, ih.1]
    · rw [State.deepest_append, h1, h2, ih.2, Nat.max_self]

theorem closed_quoted {raw text : List Char} (h : Quoted.Body raw text) : Closed ('"' :: (raw ++ ['"'])) 0 := by
  intro level
  have hopen : (State.mk .outside level).next '"' = ⟨.inside, level⟩ := by
    simp [State.next, Side.next]
  obtain ⟨h1, h2⟩ := after_body h level
  constructor
  · rw [State.after_cons, hopen, State.after_append, h1]
    simp [State.next, Side.next]
  · rw [State.deepest, hopen, State.deepest_append, h1, h2]
    simp [State.next, Side.next, State.deepest]

/-! ### Brackets -/

theorem Closed.brackets {left inner right : List Char} {n : Nat} {opening closing : Char} (h : Closed inner n)
    (ho : opening = '[' ∨ opening = '{') (hc : closing = ']' ∨ closing = '}') (hl : Spaced [opening] left)
    (hr : Spaced [closing] right) : Closed (left ++ inner ++ right) (n + 1) := by
  obtain ⟨v, hv, rfl⟩ := hl
  obtain ⟨w, hw, rfl⟩ := hr
  intro level
  have hopen : (State.mk .outside level).next opening = ⟨.outside, level + 1⟩ := by
    rcases ho with rfl | rfl <;> simp [State.next, Side.next]
  have hclose : (State.mk .outside (level + 1)).next closing = ⟨.outside, level⟩ := by
    rcases hc with rfl | rfl <;> simp [State.next, Side.next]
  obtain ⟨v1, v2⟩ := (plain_blanks hv).closed (level + 1)
  obtain ⟨h1, h2⟩ := h (level + 1)
  obtain ⟨w1, w2⟩ := (plain_blanks hw).closed level
  constructor
  · simp only [State.after_append, State.after_cons, State.after_nil, hopen, hclose, v1, h1, w1]
  · simp only [State.deepest_append, State.deepest, State.after_append, State.after_cons, State.after_nil, hopen,
      hclose, v1, v2, h1, h2, w2]
    omega

theorem closed_separated {texts : List (List Char)} {inner : List Char} (hs : Separated texts inner)
    (h : ∀ text ∈ texts, ∃ n, Closed text n) :
    ∃ m, Closed inner m ∧ ∀ text ∈ texts, ∀ n, Closed text n → n ≤ m := by
  induction hs with
  | nil => exact ⟨0, closed_nil, fun _ h => nomatch h⟩
  | one item =>
    obtain ⟨n, hn⟩ := h item List.mem_cons_self
    refine ⟨n, hn, fun text ht k hk => ?_⟩
    obtain rfl := List.mem_singleton.mp ht
    exact Nat.le_of_eq (hk.deepest_eq.symm.trans hn.deepest_eq)
  | @more item comma next items rest hcomma _ ih =>
    obtain ⟨n, hn⟩ := h item List.mem_cons_self
    obtain ⟨m, hm, hle⟩ := ih fun text ht => h text (List.mem_cons_of_mem item ht)
    have hc : Closed comma 0 := closed_spaced (Plain.closed (by simp [Plain])) hcomma
    refine ⟨max (max n 0) m, (hn.append hc).append hm, fun text ht k hk => ?_⟩
    rcases List.mem_cons.mp ht with rfl | ht
    · rw [← hk.deepest_eq, ← hn.deepest_eq]
      omega
    · have := hle text ht k hk
      omega

/-- The text closes the brackets that it opens, and no more of them than the limit are open in it at once. -/
def ClosedWithin (limit : Nat) (text : List Char) : Prop :=
  ∃ n, Closed text n ∧ n ≤ limit

namespace ClosedWithin

variable {limit : Nat}

theorem append {first second : List Char} (h : ClosedWithin limit first) (k : ClosedWithin limit second) :
    ClosedWithin limit (first ++ second) := by
  obtain ⟨m, hm, hle⟩ := h
  obtain ⟨n, hn, hle'⟩ := k
  exact ⟨max m n, hm.append hn, Nat.max_le.mpr ⟨hle, hle'⟩⟩

theorem brackets {left inner right : List Char} {opening closing : Char} (h : ClosedWithin limit inner)
    (ho : opening = '[' ∨ opening = '{') (hc : closing = ']' ∨ closing = '}') (hl : Spaced [opening] left)
    (hr : Spaced [closing] right) : ClosedWithin (limit + 1) (left ++ inner ++ right) := by
  obtain ⟨n, hn, hle⟩ := h
  exact ⟨n + 1, hn.brackets ho hc hl hr, Nat.succ_le_succ hle⟩

theorem separated {texts : List (List Char)} {inner : List Char} (hs : Separated texts inner)
    (h : ∀ text ∈ texts, ClosedWithin limit text) : ClosedWithin limit inner := by
  induction hs with
  | nil => exact ⟨0, closed_nil, Nat.zero_le limit⟩
  | one item => exact h item List.mem_cons_self
  | @more item comma next items rest hcomma _ ih =>
    have hc : ClosedWithin limit comma := ⟨0, closed_spaced (Plain.closed (by simp [Plain])) hcomma, Nat.zero_le limit⟩
    exact ((h item List.mem_cons_self).append hc).append (ih fun text ht => h text (List.mem_cons_of_mem item ht))

end ClosedWithin

/-! ### Overruns -/

namespace State

theorem overrun?_append {s : State} {limit : Nat} {first : List Char} (h : s.deepest first ≤ limit) (second : List Char) :
    s.overrun? limit (first ++ second) = ((s.after first).overrun? limit second).map (first ++ ·) := by
  induction first generalizing s with
  | nil => simp
  | cons x first ih =>
    have hnext := (s.next x).level_le_deepest first
    rw [deepest] at h
    rw [List.cons_append, overrun?, if_neg (by omega), ih (by omega), after_cons, Option.map_map]
    rfl

theorem overrun?_append_of_some {s : State} {limit : Nat} {first front : List Char} (h : s.overrun? limit first = some front)
    (second : List Char) : s.overrun? limit (first ++ second) = some front := by
  induction first generalizing s front with
  | nil => cases h
  | cons x first ih =>
    rw [overrun?] at h
    rw [List.cons_append, overrun?]
    split
    next hover =>
      rw [if_pos hover] at h
      exact h
    next hwithin =>
      rw [if_neg hwithin, Option.map_eq_some_iff] at h
      obtain ⟨front', hfront, rfl⟩ := h
      rw [ih hfront]
      rfl

theorem level_after_overrun {s : State} {limit : Nat} {text front : List Char} (h : s.overrun? limit text = some front) :
    limit < (s.after front).level := by
  induction text generalizing s front with
  | nil => cases h
  | cons x text ih =>
    rw [overrun?] at h
    split at h
    next hover =>
      obtain rfl := Option.some.inj h
      exact hover
    next hwithin =>
      obtain ⟨front', hfront, rfl⟩ := Option.map_eq_some_iff.mp h
      rw [after_cons]
      exact ih hfront

/-- Where more brackets are open behind a text than in front of it, one is opened in it. -/
theorem exists_opening {s : State} {text : List Char} (h : s.level < (s.after text).level) :
    ∃ x ∈ text, x = '[' ∨ x = '{' := by
  induction text generalizing s with
  | nil => exact absurd h (Nat.lt_irrefl _)
  | cons x text ih =>
    by_cases hx : x = '[' ∨ x = '{'
    · exact ⟨x, List.mem_cons_self, hx⟩
    · have hle : (s.next x).level ≤ s.level := by
        simp only [next, hx, if_false]
        split
        · exact Nat.le_refl _
        · split <;> omega
      obtain ⟨y, hy, hopens⟩ := ih (Nat.lt_of_le_of_lt hle h)
      exact ⟨y, List.mem_cons_of_mem x hy, hopens⟩

theorem level_after_blanks {w : List Char} (hw : Blanks w) (s : State) : (s.after w).level = s.level := by
  induction w generalizing s with
  | nil => rfl
  | cons x w ih =>
    rw [after_cons, ih fun y hy => hw y (List.mem_cons_of_mem x hy)]
    obtain ⟨h1, h2, h3, h4, h5⟩ := plain_blanks hw x List.mem_cons_self
    simp [next, h2, h3, h4, h5]

end State

end RequestDoc.Nesting

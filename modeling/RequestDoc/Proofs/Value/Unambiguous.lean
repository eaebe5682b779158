import RequestDoc.Proofs.Value.Equality
import RequestDoc.Proofs.Value.RoundTrip

/-!
Printed texts tell values apart. The first character of a printed value tells the form of the value, and what stands
behind it in a list or an object starts with a mark that no printed value goes on with. So what follows a value can be
told from the value, and two values with one text are the same, though many printed values are not read back. Only
missing numbers are printed alike.
-/

namespace RequestDoc

variable {γ : Type} {r r' : List Char}

/-- The values are identical, up to the patterns of missing numbers. -/
inductive Value.Same : Value → Value → Prop where
  | number (x : Binary64) : Same (.number x) (.number x)
  | nan {x y : Binary64} : x.isNaN = true → y.isNaN = true → Same (.number x) (.number y)
  | string (s : String) : Same (.string s) (.string s)
  | boolean (b : Bool) : Same (.boolean b) (.boolean b)
  | null : Same .null .null
  | list {xs ys : List Value} : List.Forall₂ Same xs ys → Same (.list xs) (.list ys)
  | object {xs ys : List (String × Value)} : xs.map Prod.fst = ys.map Prod.fst →
      List.Forall₂ (fun p q => Same p.2 q.2) xs ys → Same (.object ⟨xs⟩) (.object ⟨ys⟩)

/-- The text starts with a mark that stands behind a value, if with anything. -/
def Stops (text : List Char) : Prop :=
  ∀ c ∈ text.head?, c = ',' ∨ c = ']' ∨ c = '}'

/-- Wherever the text of `x` stands before a mark, it tells `x` up to the relation, and it tells where it ends. -/
def SelfDelimiting (written : γ → List Char) (R : γ → γ → Prop) (x : γ) : Prop :=
  ∀ y r r', Stops r → Stops r' → written x ++ r = written y ++ r' → R x y ∧ r = r'

theorem stops_cons {c : Char} (h : c = ',' ∨ c = ']' ∨ c = '}') (rest : List Char) : Stops (c :: rest) := by
  rintro _ ⟨⟩
  exact h

theorem Stops.numeralEnds (h : Stops r) : Numeral.Ends r := by
  intro c hc
  rcases h c hc with rfl | rfl | rfl <;> decide

theorem map_eq_map_iff_forall₂ {α β : Type} {f : α → β} {xs ys : List α} :
    xs.map f = ys.map f ↔ List.Forall₂ (fun x y => f x = f y) xs ys := by
  have heq : List.Forall₂ (· = ·) (xs.map f) (ys.map f) ↔ xs.map f = ys.map f := by
    rw [List.forall₂_eq_eq_eq]
  exact heq.symm.trans (List.forall₂_map_left_iff.trans List.forall₂_map_right_iff)

/-! ### Numbers -/

namespace Binary64

variable {x y : Binary64}

theorem scan?_chars_of_isFinite (h : x.isFinite = true) (hr : Stops r) :
    Numeral.scan? (x.chars ++ r) = some (x.numeral, r) := by
  rw [Value.chars_of_isFinite h]
  exact Numeral.scan?_text_append x.wellFormed_numeral hr.numeralEnds

theorem chars_of_not_isFinite (h : ¬x.isFinite = true) :
    x.isNaN = true ∧ x.chars = ['N', 'a', 'N'] ∨
      x.magnitude = infinity ∧ x.chars = (if x.negative then ['-'] else []) ++ ['i', 'n', 'f'] := by
  by_cases hnan : x.isNaN = true
  · exact Or.inl ⟨hnan, if_pos hnan⟩
  · refine Or.inr ⟨?_, by rw [chars, if_neg hnan, if_neg h]⟩
    simp only [isNaN, isFinite, decide_eq_true_eq] at hnan h
    omega

theorem scan?_chars_of_not_isFinite (h : ¬x.isFinite = true) : Numeral.scan? (x.chars ++ r) = none := by
  rcases chars_of_not_isFinite h with ⟨-, hchars⟩ | ⟨-, hchars⟩ <;> rw [hchars]
  · rfl
  · cases x.negative <;> rfl

/-- Infinite numbers are told apart by their sign, and missing numbers are not told apart. -/
theorem of_chars_of_not_isFinite (hx : ¬x.isFinite = true) (hy : ¬y.isFinite = true)
    (h : x.chars ++ r = y.chars ++ r') : (x = y ∨ x.isNaN = true ∧ y.isNaN = true) ∧ r = r' := by
  rcases chars_of_not_isFinite hx with ⟨hxnan, hxchars⟩ | ⟨hxinf, hxchars⟩ <;>
    rcases chars_of_not_isFinite hy with ⟨hynan, hychars⟩ | ⟨hyinf, hychars⟩ <;> rw [hxchars, hychars] at h
  · exact ⟨Or.inr ⟨hxnan, hynan⟩, List.append_cancel_left h⟩
  · cases hsign : y.negative <;> simp [hsign] at h
  · cases hsign : x.negative <;> simp [hsign] at h
  · obtain ⟨negative, magnitude, hlt⟩ := x
    obtain ⟨negative', magnitude', hlt'⟩ := y
    obtain rfl : magnitude = infinity := hxinf
    obtain rfl : magnitude' = infinity := hyinf
    obtain rfl : negative = negative' := by
      cases negative <;> cases negative' <;> simp at h ⊢
    exact ⟨Or.inl rfl, List.append_cancel_left h⟩

theorem of_chars_append (hr : Stops r) (hr' : Stops r') (h : x.chars ++ r = y.chars ++ r') :
    (x = y ∨ x.isNaN = true ∧ y.isNaN = true) ∧ r = r' := by
  have hscan := congrArg Numeral.scan? h
  by_cases hx : x.isFinite = true <;> by_cases hy : y.isFinite = true
  · rw [scan?_chars_of_isFinite hx hr, scan?_chars_of_isFinite hy hr'] at hscan
    obtain ⟨hnumeral, hrest⟩ := Prod.mk.inj (Option.some.inj hscan)
    have hvalue := congrArg Numeral.value hnumeral
    rw [value_numeral hx, value_numeral hy] at hvalue
    exact ⟨Or.inl hvalue, hrest⟩
  · rw [scan?_chars_of_isFinite hx hr, scan?_chars_of_not_isFinite hy] at hscan
    cases hscan
  · rw [scan?_chars_of_not_isFinite hx, scan?_chars_of_isFinite hy hr'] at hscan
    cases hscan
  · exact of_chars_of_not_isFinite hx hy h

end Binary64

/-! ### Quoted texts -/

theorem Quoted.of_encode_append {cs ds : List Char} (h : encode cs ++ r = encode ds ++ r') : cs = ds ∧ r = r' := by
  have hscan := congrArg scan h
  rw [scan_encode, scan_encode] at hscan
  obtain ⟨rfl, -⟩ := Outcome.closed.inj hscan
  exact ⟨rfl, List.append_cancel_left h⟩

/-! ### Items and members -/

theorem forall₂_of_commaed {written : γ → List Char} {R : γ → γ → Prop} {closing : Char}
    (hclosing : closing = ']' ∨ closing = '}') (hstart : ∀ g rest, (written g ++ rest).head? ≠ some closing)
    {xs ys : List γ} (hxs : ∀ x ∈ xs, SelfDelimiting written R x)
    (h : commaed (xs.map written) ++ closing :: r = commaed (ys.map written) ++ closing :: r') :
    List.Forall₂ R xs ys ∧ r = r' := by
  have hcomma := stops_cons (Or.inl rfl)
  have hclose := stops_cons (Or.inr hclosing)
  have hne : closing ≠ ',' := by
    rcases hclosing with rfl | rfl <;> decide
  have hmore (x y : γ) (ys : List γ) (rest : List Char) : commaed ((x :: y :: ys).map written) ++ rest =
      written x ++ ',' :: ' ' :: (commaed ((y :: ys).map written) ++ rest) :=
    commaed_append (written x) (written y) (ys.map written) rest
  have hhead (x : γ) (xs : List γ) (rest : List Char) :
      (commaed ((x :: xs).map written) ++ rest).head? ≠ some closing := by
    cases xs with
    | nil => exact hstart x rest
    | cons y ys =>
      rw [hmore]
      exact hstart x _
  induction xs generalizing ys with
  | nil =>
    cases ys with
    | nil => exact ⟨.nil, (List.cons.inj h).2⟩
    | cons y ys => exact absurd (congrArg List.head? h).symm (hhead y ys _)
  | cons x xs ih =>
    have hx := hxs x List.mem_cons_self
    rcases ys with _ | ⟨y, ys⟩
    · exact absurd (congrArg List.head? h) (hhead x xs _)
    -- Behind `x` and `y` stands a comma or the closing mark, and the same one behind both, as `x` ends where `y` does.
    rcases xs with _ | ⟨x', xs⟩ <;> rcases ys with _ | ⟨y', ys⟩
    · obtain ⟨hxy, hrest⟩ := hx _ _ _ (hclose r) (hclose r') h
      exact ⟨.cons hxy .nil, (List.cons.inj hrest).2⟩
    · rw [hmore y] at h
      obtain ⟨-, hrest⟩ := hx _ _ _ (hclose r) (hcomma _) h
      exact absurd (List.cons.inj hrest).1 hne
    · rw [hmore x] at h
      obtain ⟨-, hrest⟩ := hx _ _ _ (hcomma _) (hclose r') h
      exact absurd (List.cons.inj hrest).1.symm hne
    · rw [hmore x, hmore y] at h
      obtain ⟨hxy, hrest⟩ := hx _ _ _ (hcomma _) (hcomma _) h
      obtain ⟨hall, hend⟩ := ih (fun x hx => hxs x (List.mem_cons_of_mem _ hx)) (List.cons.inj (List.cons.inj hrest).2).2
      exact ⟨.cons hxy hall, hend⟩

/-! ### Values -/

namespace Value

/-- Values whose printed texts start with one character have one form. -/
theorem form?_eq {v w : Value} (h : v.chars ++ r = w.chars ++ r') : v.form? = w.form? := by
  obtain ⟨c, hc, hv, -⟩ := v.head?_chars r
  obtain ⟨d, hd, hw, -⟩ := w.head?_chars r'
  rw [h, hd] at hc
  obtain rfl := Option.some.inj hc
  exact hv.symm.trans hw

theorem selfDelimiting_member {m : String × Value} (hm : SelfDelimiting chars Same m.2) :
    SelfDelimiting memberChars (fun p q => p.1 = q.1 ∧ p.2.Same q.2) m := by
  intro n r r' hr hr' h
  rw [memberChars, memberChars] at h
  simp only [List.append_assoc] at h
  obtain ⟨hkey, h⟩ := Quoted.of_encode_append h
  obtain ⟨hvalue, hrest⟩ := hm n.2 r r' hr hr' (List.append_cancel_left h)
  exact ⟨⟨String.toList_inj.mp hkey, hvalue⟩, hrest⟩

theorem selfDelimiting_chars (v : Value) : SelfDelimiting chars Same v := by
  induction v using Value.induction with
  | number x =>
    intro w r r' hr hr' h
    cases w with
    | number y =>
      rw [chars, chars] at h
      obtain ⟨rfl | ⟨hx, hy⟩, hrest⟩ := Binary64.of_chars_append hr hr' h
      · exact ⟨.number x, hrest⟩
      · exact ⟨.nan hx hy, hrest⟩
    | _ => cases form?_eq h
  | string s =>
    intro w r r' _ _ h
    cases w with
    | string t =>
      rw [chars, chars] at h
      obtain ⟨htext, hrest⟩ := Quoted.of_encode_append h
      obtain rfl := String.toList_inj.mp htext
      exact ⟨.string s, hrest⟩
    | _ => cases form?_eq h
  | boolean b =>
    intro w r r' _ _ h
    cases w with
    | boolean =>
      cases form?_eq h
      exact ⟨.boolean b, List.append_cancel_left h⟩
    | _ => cases form?_eq h
  | null =>
    intro w r r' _ _ h
    cases w with
    | null => exact ⟨.null, List.append_cancel_left h⟩
    | _ => cases form?_eq h
  | list xs ih =>
    intro w r r' _ _ h
    cases w with
    | list ys =>
      simp only [chars_list, List.append_assoc, List.singleton_append] at h
      have hstart (y : Value) (rest : List Char) : (y.chars ++ rest).head? ≠ some ']' := by
        obtain ⟨c, hc, -, -, hne⟩ := y.head?_chars rest
        exact fun hclosing => hne (Option.some.inj (hc.symm.trans hclosing))
      obtain ⟨hall, hrest⟩ := forall₂_of_commaed (Or.inl rfl) hstart ih (List.cons.inj h).2
      exact ⟨.list hall, hrest⟩
    | _ => cases form?_eq h
  | object xs ih =>
    intro w r r' _ _ h
    cases w with
    | object members =>
      obtain ⟨ys⟩ := members
      simp only [chars_object, List.append_assoc, List.singleton_append] at h
      have hstart (m : String × Value) (rest : List Char) : (memberChars m ++ rest).head? ≠ some '}' := by
        rintro ⟨⟩
      obtain ⟨hall, hrest⟩ :=
        forall₂_of_commaed (Or.inr rfl) hstart (fun m hm => selfDelimiting_member (ih m hm)) (List.cons.inj h).2
      have hkeys := map_eq_map_iff_forall₂.mpr (hall.imp fun _ _ hm => hm.1)
      exact ⟨.object hkeys (hall.imp fun _ _ hm => hm.2), hrest⟩
    | _ => cases form?_eq h

theorem Same.chars_eq {v w : Value} (h : v.Same w) : v.chars = w.chars := by
  induction v using Value.induction generalizing w with
  | number x =>
    cases h with
    | number => rfl
    | nan hx hy => rw [chars, chars, Binary64.chars, Binary64.chars, if_pos hx, if_pos hy]
  | string | boolean | null =>
    cases h
    rfl
  | list xs ih =>
    cases h with
    | list hall =>
      have hchars := map_eq_map_iff_forall₂.mpr ((forall₂_mem hall).imp fun x y hxy => ih x hxy.1 hxy.2.2)
      rw [chars_list, chars_list, hchars]
  | object xs ih =>
    cases h with
    | @object _ ys hkeys hall =>
      have hmembers : List.Forall₂ (fun p q => memberChars p = memberChars q) xs ys := by
        refine .mp (fun p q hkey hvalue => ?_) (map_eq_map_iff_forall₂.mp hkeys) (forall₂_mem hall)
        rw [memberChars, memberChars, hkey, ih p hvalue.1 hvalue.2.2]
      rw [chars_object, chars_object, map_eq_map_iff_forall₂.mpr hmembers]

/-- Where no number is missing, the same values are equal. -/
theorem Same.eq {v w : Value} (h : v.Same w) (hv : v.WithoutNaN) : v = w := by
  induction v using Value.induction generalizing w with
  | number x =>
    cases h with
    | number => rfl
    | nan hx =>
      rw [withoutNaN_number_iff, hx] at hv
      cases hv
  | string | boolean | null =>
    cases h
    rfl
  | list xs ih =>
    cases h with
    | @list _ ys hall =>
      rw [withoutNaN_list_iff] at hv
      have heq : List.Forall₂ (· = ·) xs ys := (forall₂_mem hall).imp fun x y hxy => ih x hxy.1 hxy.2.2 (hv x hxy.1)
      rw [List.forall₂_eq_eq_eq] at heq
      rw [heq]
  | object xs ih =>
    cases h with
    | @object _ ys hkeys hall =>
      rw [withoutNaN_object_iff] at hv
      have heq : List.Forall₂ (· = ·) xs ys := by
        refine .mp (fun p q hkey hvalue => ?_) (map_eq_map_iff_forall₂.mp hkeys) (forall₂_mem hall)
        exact Prod.ext hkey (ih p hvalue.1 hvalue.2.2 (hv p hvalue.1))
      rw [List.forall₂_eq_eq_eq] at heq
      rw [heq]

theorem text_eq_iff_same (v w : Value) : v.text = w.text ↔ v.Same w := by
  rw [text, text, String.ofList_inj]
  constructor
  · intro h
    refine (v.selfDelimiting_chars w [] [] ?_ ?_ (by rw [h])).1 <;> rintro _ ⟨⟩
  · exact Same.chars_eq

/-- Two values are printed alike exactly if they are the same up to missing numbers. -/
theorem text_unambiguous (v w : Value) :
    (v.text = w.text ↔ v.Same w) ∧ (v.WithoutNaN → (v.text = w.text ↔ v = w)) := by
  refine ⟨text_eq_iff_same v w, fun hv => ⟨fun h => ?_, congrArg text⟩⟩
  exact ((text_eq_iff_same v w).mp h).eq hv

/-- A string that looks like two, and two missing numbers. -/
theorem text_unambiguous_quote :
    (list [string "a\", \"b"]).text ≠ (list [string "a", string "b"]).text ∧
      (number (.ofBits 0x7FF8000000000000)).text = (number (.ofBits 0xFFF8000000000001)).text := by
  have hstring : (list [string "a\", \"b"]).WithoutNaN := by
    refine withoutNaN_list_iff.mpr (List.forall_mem_singleton.mpr ?_)
    rintro x ⟨⟩
  refine ⟨fun h => ?_, (text_unambiguous _ _).1.mpr (.nan (by decide) (by decide))⟩
  have hitems := list.inj (((text_unambiguous _ _).2 hstring).mp h)
  exact absurd (congrArg List.length hitems) (by decide)

end Value

end RequestDoc

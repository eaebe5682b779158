import RequestDoc.Number.Shortest.Layout
import RequestDoc.Proofs.Literal.Complete
import RequestDoc.Value.Contents
import RequestDoc.Value.Members.Lemmas
import RequestDoc.Value.Printer

/-!
What is printed. The printed items of a list and the printed members of an object are texts with commas and
spaces between them, so the printed text of a value closes its brackets, nests as deeply as the value, and
is a literal of the value if no string, no infinite and no missing number stands in it.
-/

namespace RequestDoc

open Grammar Nesting

variable {α γ : Type}

/-! ### Induction over values -/

@[elab_as_elim]
theorem Value.induction {motive : Value → Prop} (number : ∀ x, motive (.number x)) (string : ∀ s, motive (.string s))
    (boolean : ∀ b, motive (.boolean b)) (null : motive .null)
    (list : ∀ items, (∀ v ∈ items, motive v) → motive (.list items))
    (object : ∀ members, (∀ m ∈ members, motive m.2) → motive (.object ⟨members⟩)) (v : Value) : motive v :=
  match v with
  | .number x => number x
  | .string s => string s
  | .boolean b => boolean b
  | .null => null
  | .list items => list items fun v _ => induction number string boolean null list object v
  | .object ⟨members⟩ => object members fun m _ => induction number string boolean null list object m.2
termination_by sizeOf v
decreasing_by
  · have := List.sizeOf_lt_of_mem ‹v ∈ items›
    simp only [Value.list.sizeOf_spec]
    omega
  · have := List.sizeOf_lt_of_mem ‹m ∈ members›
    obtain ⟨key, v⟩ := m
    simp only [Prod.mk.sizeOf_spec] at this
    simp only [Value.object.sizeOf_spec, Members.mk.sizeOf_spec]
    omega

/-! ### Texts with commas between them -/

/-- The texts with a comma and a space between each two of them. -/
def commaed : List (List Char) → List Char
  | [] => []
  | [text] => text
  | text :: next :: texts => text ++ [',', ' '] ++ commaed (next :: texts)

theorem commaed_append (text next : List Char) (texts : List (List Char)) (rest : List Char) :
    commaed (text :: next :: texts) ++ rest =
      text ++ (Token.comma.text.toList ++ ([' '] ++ (commaed (next :: texts) ++ rest))) := by
  simp only [commaed, List.append_assoc]
  rfl

theorem separated_commaed (texts : List (List Char)) : Separated texts (commaed texts) := by
  fun_induction commaed texts with
  | case1 => exact .nil
  | case2 text => exact .one text
  | case3 text next texts ih => exact .more ⟨[' '], by decide, rfl⟩ ih

theorem closed_commaed {written : γ → List Char} {level : γ → Nat} {gs : List γ}
    (h : ∀ g ∈ gs, Closed (written g) (level g)) :
    Closed (commaed (gs.map written)) ((gs.map level).foldr max 0) := by
  induction gs with
  | nil => exact closed_nil
  | cons g gs ih =>
    have hfirst := h g List.mem_cons_self
    have hothers := ih fun x hx => h x (List.mem_cons_of_mem g hx)
    cases gs with
    | nil => simpa [commaed] using hfirst
    | cons g' gs =>
      have hcomma : Closed [',', ' '] 0 := Plain.closed (by decide)
      have := (hfirst.append hcomma).append hothers
      rwa [Nat.max_zero] at this

namespace Value

/-- The printed characters of a member. -/
def memberChars (m : String × Value) : List Char :=
  Quoted.encode m.1.toList ++ [':', ' '] ++ m.2.chars

theorem itemsChars_eq (v : Value) (items : List Value) :
    v.chars ++ itemsChars items = commaed ((v :: items).map chars) ++ [']'] := by
  induction items generalizing v with
  | nil => simp [itemsChars, commaed]
  | cons w items ih => simp [itemsChars, commaed, ih w]

theorem chars_list (items : List Value) : (list items).chars = ['['] ++ commaed (items.map chars) ++ [']'] := by
  cases items with
  | nil => simp [chars, commaed]
  | cons v items => simp [chars, itemsChars_eq]

theorem membersChars_eq (m : String × Value) (members : List (String × Value)) :
    memberChars m ++ membersChars members = commaed ((m :: members).map memberChars) ++ ['}'] := by
  induction members generalizing m with
  | nil => simp [membersChars, commaed]
  | cons k members ih =>
    have := ih k
    simp [membersChars, commaed, memberChars] at this ⊢
    exact this

theorem chars_object (members : List (String × Value)) :
    (object ⟨members⟩).chars = ['{'] ++ commaed (members.map memberChars) ++ ['}'] := by
  cases members with
  | nil => simp [chars, commaed]
  | cons m members =>
    obtain ⟨key, v⟩ := m
    have := membersChars_eq (key, v) members
    simp [chars, memberChars] at this ⊢
    exact this

/-! ### Brackets of printed values -/

theorem nestingItems_eq (items : List Value) : nestingItems items = (items.map nesting).foldr max 0 := by
  induction items with
  | nil => simp [nestingItems]
  | cons v items ih => simp [nestingItems, ih]

theorem nestingMembers_eq (members : List (String × Value)) :
    nestingMembers members = (members.map fun m => m.2.nesting).foldr max 0 := by
  induction members with
  | nil => simp [nestingMembers]
  | cons m members ih => simp [nestingMembers, ih]

theorem plain_chars_number (x : Binary64) : Plain x.chars := by
  unfold Binary64.chars
  split
  · decide
  · split
    · exact plain_numeral x.wellFormed_numeral
    · cases x.negative <;> decide

theorem closed_encode (key : String) : Closed (Quoted.encode key.toList) 0 :=
  closed_quoted (Quoted.body_encodeBody key.toList)

/-- A printed value nests as deeply as the value. -/
theorem closed_chars (v : Value) : Closed v.chars v.nesting := by
  induction v using Value.induction with
  | number x =>
    simp only [chars, nesting]
    exact (plain_chars_number x).closed
  | string s =>
    simp only [chars, nesting]
    exact closed_encode s
  | boolean b =>
    simp only [nesting]
    cases b with
    | true => exact Plain.closed (by simp only [chars]; decide)
    | false => exact Plain.closed (by simp only [chars]; decide)
  | null =>
    simp only [chars, nesting]
    exact Plain.closed (by decide)
  | list items ih =>
    rw [chars_list, nesting, nestingItems_eq]
    exact (closed_commaed ih).brackets (Or.inl rfl) (Or.inl rfl) (.self _) (.self _)
  | object members ih =>
    rw [chars_object, nesting, nestingMembers_eq]
    refine (closed_commaed fun m hm => ?_).brackets (Or.inr rfl) (Or.inr rfl) (.self _) (.self _)
    have hcolon : Closed [':', ' '] 0 := Plain.closed (by decide)
    have := ((closed_encode m.1).append hcolon).append (ih m hm)
    rwa [Nat.max_self, Nat.zero_max] at this

/-! ### Printed literals -/

theorem chars_of_isFinite {x : Binary64} (h : x.isFinite = true) : x.chars = x.numeral.text := by
  have hnan : ¬x.isNaN = true := by
    simp only [Binary64.isFinite, Binary64.isNaN, decide_eq_true_eq] at h ⊢
    omega
  rw [Binary64.chars, if_neg hnan, if_pos h]

/-- A member as it is printed. -/
def writtenMember (m : String × Value) : Member :=
  ⟨Quoted.encode m.1.toList, m.1, [':', ' '], m.2.chars, m.2⟩

theorem literal_chars {v : Value} (h : v.IsLiteral) (hk : v.DistinctKeys) : Literal v.chars v := by
  induction v using Value.induction with
  | number x =>
    have hfinite := h.finite x (.self _)
    have hliteral := Literal.number x.wellFormed_numeral (.self _)
    rw [Binary64.value_numeral hfinite, ← chars_of_isFinite hfinite] at hliteral
    rwa [chars]
  | string s => exact absurd (.self _) (h.noString s)
  | boolean b =>
    cases b with
    | true => exact .boolean (.self _)
    | false => exact .boolean (.self _)
  | null => exact .null (.self _)
  | list items ih =>
    have hitems := isLiteral_list_iff.mp h
    have hliteral := Literal.list (items.map fun v => (v.chars, v)) (.self _) (fun item hi => by
      obtain ⟨v, hv, rfl⟩ := List.mem_map.mp hi
      exact ih v hv (hitems v hv) (hk.item hv)) (separated_commaed _) (.self _)
    have hid : Prod.snd ∘ (fun v : Value => (v.chars, v)) = id := rfl
    rw [List.map_map, List.map_map, hid, List.map_id] at hliteral
    rw [chars_list]
    exact hliteral
  | object members ih =>
    have hmembers := isLiteral_object_iff.mp h
    have hliteral := Literal.object (members.map writtenMember) (.self _) (fun x hx => by
        obtain ⟨m, hm, rfl⟩ := List.mem_map.mp hx
        exact ⟨⟨_, Quoted.body_encodeBody _, .self _⟩, [' '], by decide, rfl⟩) (fun x hx => by
        obtain ⟨m, hm, rfl⟩ := List.mem_map.mp hx
        exact ih m hm (hmembers m hm) (hk.member hm)) (separated_commaed _) (.self _)
    have hdistinct : Members.ofList members = ⟨members⟩ := Members.ofList_toList (hk ⟨members⟩ (.self _))
    have hid : Member.pair ∘ writtenMember = id := rfl
    rw [List.map_map, List.map_map, hid, List.map_id, hdistinct] at hliteral
    rw [chars_object]
    exact hliteral

end Value

end RequestDoc

import Mathlib.Data.Finset.Card
import RequestDoc.Proofs.Literal.Exact
import RequestDoc.Proofs.Parse.Depth

/-!
The history of members. Members that arise by insertion are told by the pairs that were put in, in order: every key
stands once, where it was put in first, over the value that was put in last. An object that is parsed has the members
that its text puts in, and keys that are spelled in different ways are the same if they are decoded to the same text.
-/

namespace RequestDoc

open Grammar Nesting

variable {α : Type}

namespace Members

/-! ### What a history makes -/

/-- The values that were put in under the key, the last one last. -/
def valuesUnder (key : String) (history : List (String × α)) : List α :=
  (history.filter fun p => p.1 = key).map Prod.snd

/-- What the members are like that arise when the pairs of the history are put in one after the other: every key that was
put in stands once, in the order in which the keys were put in first, over the value that was put in last. -/
structure MadeBy (m : Members α) (history : List (String × α)) : Prop where
  distinct : m.Distinct
  mem_keys : ∀ key, key ∈ m.keys ↔ key ∈ history.map Prod.fst
  ordered : m.keys.Pairwise fun k l => (history.map Prod.fst).idxOf k < (history.map Prod.fst).idxOf l
  find?_eq : ∀ key, m.find? key = (valuesUnder key history).getLast?
  size_eq : m.size = (history.map Prod.fst).toFinset.card

/-- What putting one more value under a key does: it tells the value that it replaces, and changes no other one and no
place of a key. -/
structure Takes (m : Members α) (key : String) (value : α) : Prop where
  replaced : (m.getThenInsert? key value).1 = m.find? key
  inserted : (m.getThenInsert? key value).2.find? key = some value
  others : ∀ other, other ≠ key → (m.getThenInsert? key value).2.find? other = m.find? other
  keys : m.keys <+: (m.getThenInsert? key value).2.keys

variable {m : Members α} {history : List (String × α)}

theorem valuesUnder_append (key : String) (history : List (String × α)) (p : String × α) :
    valuesUnder key (history ++ [p]) = valuesUnder key history ++ (if p.1 = key then [p.2] else []) := by
  rw [valuesUnder, List.filter_append, List.map_append, valuesUnder, List.filter_singleton]
  by_cases h : p.1 = key <;> simp [h]

/-- The size of members is the number of different keys of their history. -/
theorem size_of_mem_keys (h : m.Distinct) (hmem : ∀ key, key ∈ m.keys ↔ key ∈ history.map Prod.fst) :
    m.size = (history.map Prod.fst).toFinset.card := by
  have hkeys : m.keys.toFinset = (history.map Prod.fst).toFinset := by
    ext key
    rw [List.mem_toFinset, List.mem_toFinset, hmem]
  rw [← hkeys, List.toFinset_card_of_nodup h, keys, List.length_map, size]

theorem madeBy_empty : (empty : Members α).MadeBy [] where
  distinct := distinct_empty
  mem_keys _ := Iff.rfl
  ordered := .nil
  find?_eq _ := rfl
  size_eq := rfl

theorem MadeBy.mem_keys_insert (h : m.MadeBy history) (key : String) (value : α) (other : String) :
    other ∈ (m.insert key value).keys ↔ other ∈ (history ++ [(key, value)]).map Prod.fst := by
  rw [keys_insert, List.map_append, List.mem_append, ← h.mem_keys, List.map_singleton, List.mem_singleton]
  split
  next hkey => exact ⟨Or.inl, fun ho => ho.elim id (· ▸ hkey)⟩
  · rw [List.mem_append, List.mem_singleton]

/-- A new key was put in behind all others, and an old one has its first place in the history still. -/
theorem MadeBy.ordered_insert (h : m.MadeBy history) (key : String) (value : α) :
    (m.insert key value).keys.Pairwise fun k l =>
      ((history ++ [(key, value)]).map Prod.fst).idxOf k < ((history ++ [(key, value)]).map Prod.fst).idxOf l := by
  have hold : ∀ k ∈ m.keys, ((history ++ [(key, value)]).map Prod.fst).idxOf k = (history.map Prod.fst).idxOf k := by
    intro k hk
    rw [List.map_append, List.idxOf_append_of_mem ((h.mem_keys k).mp hk)]
  have hkeys := h.ordered.imp_of_mem fun {k l} hk hl hlt => by rwa [← hold k hk, ← hold l hl] at hlt
  rw [keys_insert]
  split
  · exact hkeys
  next hnew =>
    refine List.pairwise_append.mpr ⟨hkeys, List.pairwise_singleton _ _, fun k hk l hl => ?_⟩
    obtain rfl := List.mem_singleton.mp hl
    have hlt := List.idxOf_lt_length_of_mem ((h.mem_keys k).mp hk)
    rw [hold k hk, List.map_append, List.idxOf_append, if_neg (fun hmem => hnew ((h.mem_keys _).mpr hmem))]
    omega

/-- One more insertion is one more pair of the history. -/
theorem MadeBy.insert (h : m.MadeBy history) (key : String) (value : α) :
    (m.insert key value).MadeBy (history ++ [(key, value)]) where
  distinct := h.distinct.insert key value
  mem_keys := h.mem_keys_insert key value
  ordered := h.ordered_insert key value
  find?_eq other := by
    rw [find?_insert, h.find?_eq, valuesUnder_append]
    by_cases hkey : other = key
    · simp [hkey]
    · simp [hkey, Ne.symm hkey]
  size_eq := size_of_mem_keys (h.distinct.insert key value) (h.mem_keys_insert key value)

theorem MadeBy.foldl_insert (h : m.MadeBy history) (pairs : List (String × α)) :
    (pairs.foldl (fun m p => m.insert p.1 p.2) m).MadeBy (history ++ pairs) := by
  induction pairs generalizing m history with
  | nil => rwa [List.append_nil]
  | cons p pairs ih =>
    have := ih (h.insert p.1 p.2)
    rwa [List.append_assoc] at this

theorem madeBy_ofList (history : List (String × α)) : (ofList history).MadeBy history :=
  madeBy_empty.foldl_insert history

theorem takes (m : Members α) (key : String) (value : α) : m.Takes key value where
  replaced := m.getThenInsert?_fst key value
  inserted := by rw [getThenInsert?_snd, find?_insert, if_pos rfl]
  others other ho := by rw [getThenInsert?_snd, find?_insert, if_neg ho]
  keys := by
    rw [getThenInsert?_snd, keys_insert]
    split
    · exact List.prefix_refl _
    · exact List.prefix_append _ _

end Members

/-! ### Objects that are written -/

/-- The text writes the members of an object between braces, with commas between them. -/
inductive WritesMembers (members : List Member) : List Char → Prop where
  | mk {left inner right : List Char} :
      Punctuation .openBrace left → (∀ m ∈ members, Key m.keyText m.key ∧ Punctuation .colon m.colon) →
      (∀ m ∈ members, Literal m.valueText m.value) → Separated (members.map Member.text) inner →
      Punctuation .closeBrace right → WritesMembers members (left ++ inner ++ right)

theorem literal_object_iff {text : List Char} {m : Members Value} :
    Literal text (.object m) ↔ ∃ members, WritesMembers members text ∧ m = .ofList (members.map Member.pair) := by
  constructor
  · intro h
    cases h with
    | object members hl hkeys hvalues hsep hr => exact ⟨members, .mk hl hkeys hvalues hsep hr, rfl⟩
  · rintro ⟨members, ⟨hl, hkeys, hvalues, hsep, hr⟩, rfl⟩
    exact .object members hl hkeys hvalues hsep hr

theorem Value.parse_eq_object_iff {limits : Limits} {text : String} {m : Members Value} :
    Value.parse limits text = .ok (.object m) ↔
      text.utf8ByteSize ≤ limits.textSize ∧ ∃ w s members, Blanks w ∧ text.toList = w ++ s ∧ WritesMembers members s ∧
        ClosedWithin limits.depth s ∧ m = .ofList (members.map Member.pair) := by
  constructor
  · intro h
    have hsize := Rule.size_of_parse_eq_ok h
    obtain ⟨w, s, hw, htext, hliteral, hclosed⟩ := (parse_eq_ok_iff_within hsize _).mp h
    obtain ⟨members, hwrites, hm⟩ := literal_object_iff.mp hliteral
    exact ⟨hsize, w, s, members, hw, htext, hwrites, hclosed, hm⟩
  · rintro ⟨hsize, w, s, members, hw, htext, hwrites, hclosed, hm⟩
    exact (parse_eq_ok_iff_within hsize _).mpr ⟨w, s, hw, htext, literal_object_iff.mpr ⟨members, hwrites, hm⟩, hclosed⟩

/-- Members are made by their history, and putting in more pairs goes on with it. A text is parsed as an object
exactly if it writes the history of its members. -/
theorem members_follow_history :
    (∀ history : List (String × Value),
      (Members.ofList history).MadeBy history ∧
      (∀ key value, (Members.ofList history).Takes key value ∧
        ((Members.ofList history).getThenInsert? key value).2 = .ofList (history ++ [(key, value)])) ∧
      ∀ later, Members.ofList (history ++ later) = later.foldl (fun m p => m.insert p.1 p.2) (.ofList history)) ∧
    ∀ limits text m, Value.parse limits text = .ok (.object m) ↔
      text.utf8ByteSize ≤ limits.textSize ∧ ∃ w s members, Blanks w ∧ text.toList = w ++ s ∧ WritesMembers members s ∧
        ClosedWithin limits.depth s ∧ m = .ofList (members.map Member.pair) := by
  refine ⟨fun history => ⟨Members.madeBy_ofList history, fun key value => ⟨Members.takes _ key value, ?_⟩,
    Members.ofList_append history⟩, fun _ _ _ => Value.parse_eq_object_iff⟩
  exact (Members.ofList_append history [(key, value)]).symm

/-- A member with its key spelled as it is. -/
def Grammar.Member.plain : Member :=
  ⟨['"', 'A', '"'], "A", [':'], ['n', 'u', 'l', 'l'], .null⟩

/-- A member with the same key, spelled with an escape. -/
def Grammar.Member.escaped : Member :=
  ⟨['"', '\\', 'u', '0', '0', '4', '1', '"'], "A", [':'], ['t', 'r', 'u', 'e'], .boolean true⟩

/-- Two spellings of one key, the second one with an escape. -/
theorem members_follow_history_two_spellings :
    ∃ members : List Member, WritesMembers members "\x7b\"A\":null,\"\\u0041\":true\x7d".toList ∧
      members.map Member.keyText = [['"', 'A', '"'], ['"', '\\', 'u', '0', '0', '4', '1', '"']] ∧
      Value.parse ⟨64, 1⟩ "\x7b\"A\":null,\"\\u0041\":true\x7d" = .ok (.object ⟨[("A", .boolean true)]⟩) ∧
      (⟨[("A", .boolean true)]⟩ : Members Value).MadeBy [("A", .null), ("A", .boolean true)] := by
  obtain ⟨hhistory, hparse⟩ := members_follow_history
  have hplain : Key Member.plain.keyText "A" := ⟨_, .cons (.plain (by decide) (by decide)) .nil, .self _⟩
  have hescaped : Key Member.escaped.keyText "A" := ⟨_, .cons (.long (n := 0x41) rfl (by decide)) .nil, .self _⟩
  have hsep : Separated [Member.plain.text, Member.escaped.text] (Member.plain.text ++ [','] ++ Member.escaped.text) :=
    .more (.self _) (.one _)
  have hwrites : WritesMembers [.plain, .escaped] (['{'] ++ (Member.plain.text ++ [','] ++ Member.escaped.text) ++ ['}']) := by
    refine .mk (.self _) ?_ ?_ hsep (.self _)
    · exact List.forall_mem_cons.mpr ⟨⟨hplain, .self _⟩, List.forall_mem_singleton.mpr ⟨hescaped, .self _⟩⟩
    · exact List.forall_mem_cons.mpr ⟨.null (.self _), List.forall_mem_singleton.mpr (.boolean (.self _))⟩
  have hclosed : ClosedWithin 0 (Member.plain.text ++ [','] ++ Member.escaped.text) := by
    refine .separated hsep (List.forall_mem_cons.mpr ⟨⟨0, ?_, Nat.le_refl 0⟩,
      List.forall_mem_singleton.mpr ⟨0, ?_, Nat.le_refl 0⟩⟩)
    · exact closed_member hplain (.self _) (Plain.closed (by decide))
    · exact closed_member hescaped (.self _) (Plain.closed (by decide))
  refine ⟨[.plain, .escaped], hwrites, rfl, (hparse _ _ _).mpr ⟨by decide, [], _, _, .nil, rfl, hwrites, ?_, rfl⟩,
    (hhistory [("A", .null), ("A", .boolean true)]).1⟩
  exact hclosed.brackets (Or.inr rfl) (Or.inr rfl) (.self _) (.self _)

end RequestDoc

import RequestDoc.Value.Members

/-!
What insertion does to members, told by the keys in order and by the value under each key. Inserting adds
a new key at the end and keeps the place of an old one; only the value under the inserted key changes, and
no key ever stands twice.
-/

namespace RequestDoc.Members

variable {α : Type}

/-! ### Exchanging a value in a list of pairs -/

theorem exchange_fst (key : String) (value : α) (pairs : List (String × α)) :
    (exchange key value pairs).1 = pairs.lookup key := by
  induction pairs with
  | nil => rfl
  | cons p pairs ih =>
    obtain ⟨k, old⟩ := p
    by_cases h : k = key
    · simp [exchange, h]
    · have hk : (key == k) = false := by simpa using Ne.symm h
      simp [exchange, h, List.lookup_cons, hk, ih]

theorem keys_exchange (key : String) (value : α) (pairs : List (String × α)) :
    (exchange key value pairs).2.map Prod.fst =
      if key ∈ pairs.map Prod.fst then pairs.map Prod.fst else pairs.map Prod.fst ++ [key] := by
  induction pairs with
  | nil => rfl
  | cons p pairs ih =>
    obtain ⟨k, old⟩ := p
    by_cases h : k = key
    · simp [exchange, h]
    · simp only [exchange, if_neg h, List.map_cons, ih, List.mem_cons, Ne.symm h, false_or]
      split <;> rfl

theorem lookup_exchange (key : String) (value : α) (pairs : List (String × α)) (other : String) :
    (exchange key value pairs).2.lookup other =
      if other = key then some value else pairs.lookup other := by
  induction pairs with
  | nil =>
    by_cases h : other = key
    · simp [exchange, h]
    · have : (other == key) = false := by simpa using h
      simp [exchange, List.lookup_cons, h, this]
  | cons p pairs ih =>
    obtain ⟨k, old⟩ := p
    by_cases h : k = key
    · subst h
      by_cases ho : other = k
      · simp [exchange, ho]
      · have : (other == k) = false := by simpa using ho
        simp [exchange, List.lookup_cons, ho, this]
    · by_cases ho : other = k
      · subst ho
        simp [exchange, h]
      · have : (other == k) = false := by simpa using ho
        simp [exchange, h, List.lookup_cons, this, ih]

/-! ### Members -/

/-- Inserting tells the value that stood under the key. -/
@[simp]
theorem getThenInsert?_fst (m : Members α) (key : String) (value : α) :
    (m.getThenInsert? key value).1 = m.find? key :=
  exchange_fst key value m.toList

/-- Inserting with and without telling the old value makes the same members. -/
@[simp]
theorem getThenInsert?_snd (m : Members α) (key : String) (value : α) :
    (m.getThenInsert? key value).2 = m.insert key value := rfl

/-- An old key keeps its place, and a new one comes last. -/
theorem keys_insert (m : Members α) (key : String) (value : α) :
    (m.insert key value).keys = if key ∈ m.keys then m.keys else m.keys ++ [key] :=
  keys_exchange key value m.toList

/-- Under the inserted key stands the inserted value, and nothing else changes. -/
theorem find?_insert (m : Members α) (key : String) (value : α) (other : String) :
    (m.insert key value).find? other = if other = key then some value else m.find? other :=
  lookup_exchange key value m.toList other

/-- Inserting makes no key stand twice. -/
theorem Distinct.insert {m : Members α} (h : m.Distinct) (key : String) (value : α) :
    (m.insert key value).Distinct := by
  unfold Distinct at *
  rw [keys_insert]
  split
  · exact h
  next hk =>
    rw [List.nodup_append]
    refine ⟨h, by simp, ?_⟩
    intro a ha b hb
    rw [List.mem_singleton] at hb
    subst hb
    exact fun hab => hk (hab ▸ ha)

theorem distinct_empty : (empty : Members α).Distinct :=
  List.nodup_nil

theorem distinct_foldl_insert {m : Members α} (h : m.Distinct) (pairs : List (String × α)) :
    (pairs.foldl (fun m p => m.insert p.1 p.2) m).Distinct := by
  induction pairs generalizing m with
  | nil => exact h
  | cons p pairs ih => exact ih (h.insert p.1 p.2)

/-- Members that arise by insertion have distinct keys. -/
theorem distinct_ofList (pairs : List (String × α)) : (ofList pairs).Distinct :=
  distinct_foldl_insert distinct_empty pairs

/-- Pairs can be put in in two parts. -/
theorem ofList_append (xs ys : List (String × α)) :
    ofList (xs ++ ys) = ys.foldl (fun m p => m.insert p.1 p.2) (ofList xs) :=
  List.foldl_append

theorem exchange_of_not_mem {key : String} {pairs : List (String × α)} (h : key ∉ pairs.map Prod.fst) (value : α) :
    (exchange key value pairs).2 = pairs ++ [(key, value)] := by
  induction pairs with
  | nil => rfl
  | cons p pairs ih =>
    obtain ⟨k, old⟩ := p
    rw [List.map_cons, List.mem_cons, not_or] at h
    simp only [exchange, if_neg (Ne.symm h.1), ih h.2, List.cons_append]

theorem foldl_insert_of_nodup {m : Members α} {pairs : List (String × α)} (h : (m.keys ++ pairs.map Prod.fst).Nodup) :
    pairs.foldl (fun m p => m.insert p.1 p.2) m = ⟨m.toList ++ pairs⟩ := by
  induction pairs generalizing m with
  | nil => rw [List.foldl_nil, List.append_nil]
  | cons p pairs ih =>
    obtain ⟨key, value⟩ := p
    have hkey : key ∉ m.toList.map Prod.fst := by
      intro hmem
      rw [List.nodup_append] at h
      exact h.2.2 key hmem key List.mem_cons_self rfl
    have hinsert : m.insert key value = ⟨m.toList ++ [(key, value)]⟩ :=
      congrArg Members.mk (exchange_of_not_mem hkey value)
    have hkeys : ((m.insert key value).keys ++ pairs.map Prod.fst).Nodup := by
      rw [hinsert, keys, List.map_append, List.append_assoc]
      exact h
    rw [List.foldl_cons, ih hkeys, hinsert, List.append_assoc, List.singleton_append]

theorem ofList_toList {m : Members α} (h : m.Distinct) : ofList m.toList = m :=
  foldl_insert_of_nodup h

/-! ### Members and their keys -/

theorem mem_of_find? {m : Members α} {key : String} {x : α} (h : m.find? key = some x) : (key, x) ∈ m.toList := by
  obtain ⟨front, back, hm, -⟩ := List.lookup_eq_some_iff.mp h
  rw [hm]
  exact List.mem_append_right _ List.mem_cons_self

theorem Distinct.find?_of_mem {m : Members α} (hm : m.Distinct) {key : String} {x : α} (h : (key, x) ∈ m.toList) :
    m.find? key = some x := by
  obtain ⟨front, back, hfront⟩ := List.append_of_mem h
  refine List.lookup_eq_some_iff.mpr ⟨front, back, hfront, fun p hp => bne_iff_ne.mpr ?_⟩
  rintro rfl
  rw [Distinct, keys, hfront, List.map_append, List.map_cons, List.nodup_append] at hm
  exact hm.2.2 p.1 (List.mem_map_of_mem hp) p.1 List.mem_cons_self rfl

theorem mem_keys_of_find? {m : Members α} {key : String} {x : α} (h : m.find? key = some x) : key ∈ m.keys :=
  List.mem_map_of_mem (f := Prod.fst) (mem_of_find? h)

theorem Distinct.exists_find? {m : Members α} (hm : m.Distinct) {key : String} (h : key ∈ m.keys) :
    ∃ x, m.find? key = some x := by
  obtain ⟨⟨_, x⟩, hx, rfl⟩ := List.mem_map.mp h
  exact ⟨x, hm.find?_of_mem hx⟩

/-! ### Where members come from -/

theorem mem_exchange {key : String} {value : α} {pairs : List (String × α)} {m : String × α}
    (h : m ∈ (exchange key value pairs).2) : m = (key, value) ∨ m ∈ pairs := by
  induction pairs with
  | nil => exact Or.inl (List.mem_singleton.mp h)
  | cons p pairs ih =>
    obtain ⟨k, old⟩ := p
    by_cases hk : k = key
    · rw [exchange, if_pos hk, hk] at h
      exact (List.mem_cons.mp h).imp_right (List.mem_cons_of_mem _)
    · simp only [exchange, if_neg hk] at h
      rcases List.mem_cons.mp h with rfl | h
      · exact Or.inr List.mem_cons_self
      · exact (ih h).imp_right (List.mem_cons_of_mem _)

theorem mem_foldl_insert {m : Members α} {pairs : List (String × α)} {p : String × α}
    (h : p ∈ (pairs.foldl (fun m p => m.insert p.1 p.2) m).toList) : p ∈ m.toList ∨ p ∈ pairs := by
  induction pairs generalizing m with
  | nil => exact Or.inl h
  | cons q pairs ih =>
    rcases ih h with h | h
    · rcases mem_exchange h with rfl | h
      · exact Or.inr List.mem_cons_self
      · exact Or.inl h
    · exact Or.inr (List.mem_cons_of_mem q h)

/-- Nothing but what was put in is a member. -/
theorem mem_ofList {pairs : List (String × α)} {p : String × α} (h : p ∈ (ofList pairs).toList) : p ∈ pairs :=
  (mem_foldl_insert h).resolve_left List.not_mem_nil

end RequestDoc.Members

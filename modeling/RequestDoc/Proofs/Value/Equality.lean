import Mathlib.Data.List.Forall2
import Mathlib.Data.List.Perm.Subperm
import RequestDoc.Proofs.Value.Printed

/-!
Equality of values. It is symmetric and transitive, and a value equals itself if and only if no missing number stands
in it. The comparison of two objects looks the keys of the first one up in the second one only. That this tells the
same in both directions rests on a count: no key stands twice, and there are as many members on both sides.
-/

namespace RequestDoc

variable {α β γ : Type}

/-! ### Equality of numbers -/

namespace Binary64

variable {x y z : Binary64}

theorem equal_iff :
    x.equal y = true ↔ x.isNaN = false ∧ y.isNaN = false ∧
      x.magnitude = y.magnitude ∧ (x.negative = y.negative ∨ x.magnitude = 0) := by
  simp [equal, and_assoc]

theorem equal_symm (h : x.equal y = true) : y.equal x = true := by
  obtain ⟨hx, hy, hmagnitude, hsign⟩ := equal_iff.mp h
  exact equal_iff.mpr ⟨hy, hx, hmagnitude.symm, hsign.imp Eq.symm (hmagnitude ▸ ·)⟩

theorem equal_trans (h : x.equal y = true) (k : y.equal z = true) : x.equal z = true := by
  obtain ⟨hx, -, hxy, hsign⟩ := equal_iff.mp h
  obtain ⟨-, hz, hyz, hsign'⟩ := equal_iff.mp k
  refine equal_iff.mpr ⟨hx, hz, hxy.trans hyz, ?_⟩
  rcases hsign with hsign | hzero
  · exact hsign'.imp hsign.trans hxy.trans
  · exact Or.inr hzero

theorem equal_self_iff : x.equal x = true ↔ x.isNaN = false :=
  equal_iff.trans ⟨And.left, fun h => ⟨h, h, rfl, Or.inl rfl⟩⟩

end Binary64

/-! ### Lists compared one by one -/

theorem forall₂_mem {R : α → β → Prop} {xs : List α} {ys : List β} (h : List.Forall₂ R xs ys) :
    List.Forall₂ (fun x y => x ∈ xs ∧ y ∈ ys ∧ R x y) xs ys := by
  induction h with
  | nil => exact .nil
  | cons hxy _ ih =>
    refine .cons ⟨List.mem_cons_self, List.mem_cons_self, hxy⟩ (ih.imp fun _ _ h => ?_)
    exact ⟨List.mem_cons_of_mem _ h.1, List.mem_cons_of_mem _ h.2.1, h.2.2⟩

theorem forall₂_comp {R : α → β → Prop} {S : β → γ → Prop} {xs : List α} {ys : List β} {zs : List γ}
    (h : List.Forall₂ R xs ys) (k : List.Forall₂ S ys zs) :
    List.Forall₂ (fun x z => ∃ y, R x y ∧ S y z) xs zs := by
  induction h generalizing zs with
  | nil =>
    cases k
    exact .nil
  | cons hxy _ ih =>
    cases k with
    | cons hyz k => exact .cons ⟨_, hxy, hyz⟩ (ih k)

/-! ### Members compared key by key -/

namespace Members

variable {m n : Members α} {R : α → α → Prop}

/-- The same keys stand in both, over related values. -/
structure Agree (R : α → α → Prop) (m n : Members α) : Prop where
  keys : ∀ key, key ∈ m.keys ↔ key ∈ n.keys
  values : ∀ key x y, m.find? key = some x → n.find? key = some y → R x y

/-- It is enough to look the keys of one side up in the other, if both have as many members. -/
theorem agree_iff (hm : m.Distinct) (hn : n.Distinct) :
    m.Agree R n ↔ m.size = n.size ∧ ∀ p ∈ m.toList, ∃ y, n.find? p.1 = some y ∧ R p.2 y := by
  have hsize (l : Members α) : l.keys.length = l.size := List.length_map Prod.fst
  constructor
  · intro h
    have hperm : m.keys.Perm n.keys := (List.perm_ext_iff_of_nodup hm hn).mpr h.keys
    refine ⟨by rw [← hsize m, hperm.length_eq, hsize n], fun p hp => ?_⟩
    obtain ⟨y, hy⟩ := hn.exists_find? ((h.keys p.1).mp (List.mem_map_of_mem hp))
    exact ⟨y, hy, h.values p.1 p.2 y (hm.find?_of_mem hp) hy⟩
  · rintro ⟨hlength, h⟩
    have hsub : m.keys ⊆ n.keys := by
      intro key hkey
      obtain ⟨p, hp, rfl⟩ := List.mem_map.mp hkey
      obtain ⟨y, hy, -⟩ := h p hp
      exact mem_keys_of_find? hy
    have hcount : n.keys.length ≤ m.keys.length := by
      rw [hsize, hsize]
      exact Nat.le_of_eq hlength.symm
    -- As many keys, none of them twice, so the second side has no key but those of the first.
    have hperm : m.keys.Perm n.keys := (List.subperm_of_subset hm hsub).perm_of_length_le hcount
    refine ⟨fun key => hperm.mem_iff, fun key x y hx hy => ?_⟩
    obtain ⟨z, hz, hxz⟩ := h (key, x) (mem_of_find? hx)
    obtain rfl := Option.some.inj (hz.symm.trans hy)
    exact hxz

end Members

/-! ### Equality of values -/

namespace Value

variable {u v w : Value}

theorem equalItems_iff {xs ys : List Value} :
    equalItems xs ys = true ↔ List.Forall₂ (fun x y => x.equal y = true) xs ys := by
  induction xs generalizing ys with
  | nil => cases ys <;> simp [equalItems]
  | cons x xs ih => cases ys <;> simp [equalItems, ih]

theorem equalMembers_iff {xs : List (String × Value)} {m : Members Value} :
    equalMembers xs m = true ↔ ∀ p ∈ xs, ∃ y, m.find? p.1 = some y ∧ p.2.equal y = true := by
  induction xs with
  | nil => simp [equalMembers]
  | cons p xs ih =>
    obtain ⟨key, x⟩ := p
    rw [equalMembers, Bool.and_eq_true, ih, List.forall_mem_cons]
    refine and_congr_left fun _ => ?_
    cases m.find? key <;> simp

theorem equal_number_iff {x : Binary64} : (number x).equal v = true ↔ ∃ y, v = number y ∧ x.equal y = true := by
  cases v <;> simp [equal]

theorem equal_string_iff {s : String} : (string s).equal v = true ↔ string s = v := by
  cases v <;> simp [equal]

theorem equal_boolean_iff {b : Bool} : (boolean b).equal v = true ↔ boolean b = v := by
  cases v <;> simp [equal]

theorem equal_null_iff : null.equal v = true ↔ null = v := by
  cases v <;> simp [equal]

theorem equal_list_iff {xs : List Value} :
    (list xs).equal v = true ↔ ∃ ys, v = list ys ∧ List.Forall₂ (fun x y => x.equal y = true) xs ys := by
  cases v <;> simp [equal, equalItems_iff]

theorem object_of_equal {m : Members Value} (h : (object m).equal v = true) : ∃ n, v = object n := by
  cases v with
  | object n => exact ⟨n, rfl⟩
  | _ => simp [equal] at h

/-- Two objects are equal if and only if the same keys stand in them over equal values. -/
theorem equal_object_iff {m n : Members Value} (hm : m.Distinct) (hn : n.Distinct) :
    (object m).equal (object n) = true ↔ m.Agree (fun x y => x.equal y = true) n := by
  rw [Members.agree_iff hm hn, equal, Bool.and_eq_true, beq_iff_eq, equalMembers_iff]
  rfl

theorem equal_symm (hu : u.DistinctKeys) (hv : v.DistinctKeys) (h : u.equal v = true) : v.equal u = true := by
  induction u using Value.induction generalizing v with
  | number x =>
    obtain ⟨y, rfl, hxy⟩ := equal_number_iff.mp h
    exact equal_number_iff.mpr ⟨x, rfl, Binary64.equal_symm hxy⟩
  | string =>
    obtain rfl := equal_string_iff.mp h
    exact h
  | boolean =>
    obtain rfl := equal_boolean_iff.mp h
    exact h
  | null =>
    obtain rfl := equal_null_iff.mp h
    exact h
  | list xs ih =>
    obtain ⟨ys, rfl, hall⟩ := equal_list_iff.mp h
    refine equal_list_iff.mpr ⟨xs, rfl, List.Forall₂.flip ((forall₂_mem hall).imp ?_)⟩
    exact fun x y hxy => ih x hxy.1 (hu.item hxy.1) (hv.item hxy.2.1) hxy.2.2
  | object m ih =>
    obtain ⟨n, rfl⟩ := object_of_equal h
    have hm := hu _ (.self _)
    have hn := hv _ (.self _)
    have hagree := (equal_object_iff hm hn).mp h
    refine (equal_object_iff hn hm).mpr ⟨fun key => (hagree.keys key).symm, fun key y x hy hx => ?_⟩
    have hmem := Members.mem_of_find? hx
    exact ih _ hmem (hu.member hmem) (hv.member (Members.mem_of_find? hy)) (hagree.values key x y hx hy)

theorem equal_trans (hu : u.DistinctKeys) (hv : v.DistinctKeys) (hw : w.DistinctKeys) (h : u.equal v = true)
    (k : v.equal w = true) : u.equal w = true := by
  induction u using Value.induction generalizing v w with
  | number x =>
    obtain ⟨y, rfl, hxy⟩ := equal_number_iff.mp h
    obtain ⟨z, rfl, hyz⟩ := equal_number_iff.mp k
    exact equal_number_iff.mpr ⟨z, rfl, Binary64.equal_trans hxy hyz⟩
  | string =>
    obtain rfl := equal_string_iff.mp h
    exact k
  | boolean =>
    obtain rfl := equal_boolean_iff.mp h
    exact k
  | null =>
    obtain rfl := equal_null_iff.mp h
    exact k
  | list xs ih =>
    obtain ⟨ys, rfl, hxys⟩ := equal_list_iff.mp h
    obtain ⟨zs, rfl, hyzs⟩ := equal_list_iff.mp k
    refine equal_list_iff.mpr ⟨zs, rfl, (forall₂_comp (forall₂_mem hxys) (forall₂_mem hyzs)).imp ?_⟩
    rintro x z ⟨y, ⟨hx, hy, hxy⟩, -, hz, hyz⟩
    exact ih x hx (hu.item hx) (hv.item hy) (hw.item hz) hxy hyz
  | object m ih =>
    obtain ⟨n, rfl⟩ := object_of_equal h
    obtain ⟨l, rfl⟩ := object_of_equal k
    have hm := hu _ (.self _)
    have hn := hv _ (.self _)
    have hl := hw _ (.self _)
    have hmn := (equal_object_iff hm hn).mp h
    have hnl := (equal_object_iff hn hl).mp k
    refine (equal_object_iff hm hl).mpr ⟨fun key => (hmn.keys key).trans (hnl.keys key), fun key x z hx hz => ?_⟩
    obtain ⟨y, hy⟩ := hn.exists_find? ((hmn.keys key).mp (Members.mem_keys_of_find? hx))
    have hxm := Members.mem_of_find? hx
    have hyn := Members.mem_of_find? hy
    have hzl := Members.mem_of_find? hz
    exact ih _ hxm (hu.member hxm) (hv.member hyn) (hw.member hzl) (hmn.values key x y hx hy) (hnl.values key y z hy hz)

theorem equal_self_of_equal (hu : u.DistinctKeys) (hv : v.DistinctKeys) (h : u.equal v = true) : u.equal u = true :=
  equal_trans hu hv hu h (equal_symm hu hv h)

/-- A value equals itself if and only if no missing number stands in it. -/
theorem equal_self_iff (hv : v.DistinctKeys) : v.equal v = true ↔ v.WithoutNaN := by
  induction v using Value.induction with
  | number x => simp [equal, withoutNaN_number_iff, Binary64.equal_self_iff]
  | string | boolean | null =>
    refine iff_of_true (by simp [equal]) ?_
    rintro x ⟨⟩
  | list items ih =>
    rw [equal, equalItems_iff, List.forall₂_same, withoutNaN_list_iff]
    exact forall₂_congr fun x hx => ih x hx (hv.item hx)
  | object members ih =>
    have hm : (Members.mk members).Distinct := hv _ (.self _)
    rw [equal_object_iff hm hm, withoutNaN_object_iff]
    constructor
    · intro h p hp
      have hfind := hm.find?_of_mem hp
      exact (ih p hp (hv.member hp)).mp (h.values p.1 p.2 p.2 hfind hfind)
    · refine fun h => ⟨fun _ => Iff.rfl, fun key x y hx hy => ?_⟩
      obtain rfl := Option.some.inj (hx.symm.trans hy)
      have hmem := Members.mem_of_find? hx
      exact (ih _ hmem (hv.member hmem)).mpr (h _ hmem)

/-! ### Objects made from the same pairs in another order -/

/-- The second value is made as the first one, except that in some objects the pairs were put in in another order. -/
inductive Rearranged : Value → Value → Prop where
  | same (v : Value) : Rearranged v v
  | pairs {xs ys : List (String × Value)} : (xs.map Prod.fst).Nodup → xs.Perm ys →
      Rearranged (object (.ofList xs)) (object (.ofList ys))
  | item {front back : List Value} {v w : Value} : Rearranged v w →
      Rearranged (list (front ++ v :: back)) (list (front ++ w :: back))
  | member {front back : List (String × Value)} {key : String} {v w : Value} : Rearranged v w →
      Rearranged (object ⟨front ++ (key, v) :: back⟩) (object ⟨front ++ (key, w) :: back⟩)
  | trans {u v w : Value} : Rearranged u v → Rearranged v w → Rearranged u w

theorem distinctKeys_ofList {pairs : List (String × Value)} (h : ∀ p ∈ pairs, p.2.DistinctKeys) :
    (object (.ofList pairs)).DistinctKeys :=
  distinctKeys_object_iff.mpr ⟨Members.distinct_ofList pairs, fun p hp => h p (Members.mem_ofList hp)⟩

theorem Rearranged.distinctKeys (h : Rearranged v w) (hv : v.DistinctKeys) : w.DistinctKeys := by
  induction h with
  | same => exact hv
  | @pairs xs ys hxs hperm =>
    have hpairs : Members.ofList xs = ⟨xs⟩ := Members.ofList_toList hxs
    rw [hpairs] at hv
    exact distinctKeys_ofList fun p hp => hv.member (hperm.mem_iff.mpr hp)
  | item _ ih =>
    rw [distinctKeys_list_iff, List.forall_mem_append, List.forall_mem_cons] at hv ⊢
    exact ⟨hv.1, ih hv.2.1, hv.2.2⟩
  | member _ ih =>
    rw [distinctKeys_object_iff, List.forall_mem_append, List.forall_mem_cons] at hv ⊢
    refine ⟨?_, hv.2.1, ih hv.2.2.1, hv.2.2.2⟩
    have := hv.1
    simp only [Members.Distinct, Members.keys, List.map_append, List.map_cons] at this ⊢
    exact this
  | trans _ _ ih ih' => exact ih' (ih hv)

theorem Rearranged.equal (h : Rearranged v w) (hv : v.DistinctKeys) (hnan : v.WithoutNaN) : v.equal w = true := by
  induction h with
  | same => exact (equal_self_iff hv).mpr hnan
  | @pairs xs ys hxs hperm =>
    have hys : (ys.map Prod.fst).Nodup := (hperm.map Prod.fst).nodup_iff.mp hxs
    have hx : Members.ofList xs = ⟨xs⟩ := Members.ofList_toList hxs
    have hy : Members.ofList ys = ⟨ys⟩ := Members.ofList_toList hys
    rw [hx] at hv hnan
    rw [hx, hy, equal_object_iff hxs hys]
    refine ⟨fun key => (hperm.map Prod.fst).mem_iff, fun key x y hx hy => ?_⟩
    have hmem := Members.mem_of_find? hx
    -- The pair with the key is the same in both orders.
    have hsame := Members.Distinct.find?_of_mem (m := ⟨ys⟩) hys (hperm.mem_iff.mp hmem)
    obtain rfl := Option.some.inj (hsame.symm.trans hy)
    exact (equal_self_iff (hv.member hmem)).mpr (withoutNaN_object_iff.mp hnan _ hmem)
  | @item front back v w _ ih =>
    rw [distinctKeys_list_iff, List.forall_mem_append, List.forall_mem_cons] at hv
    rw [withoutNaN_list_iff, List.forall_mem_append, List.forall_mem_cons] at hnan
    rw [Value.equal, equalItems_iff]
    refine List.rel_append (List.forall₂_same.mpr fun x hx => ?_) (.cons (ih hv.2.1 hnan.2.1) ?_)
    · exact (equal_self_iff (hv.1 x hx)).mpr (hnan.1 x hx)
    · exact List.forall₂_same.mpr fun x hx => (equal_self_iff (hv.2.2 x hx)).mpr (hnan.2.2 x hx)
  | @member front back key v w hvw ih =>
    have hw := (Rearranged.member hvw).distinctKeys hv
    have hm : (Members.mk (front ++ (key, v) :: back)).Distinct := hv _ (.self _)
    have hn : (Members.mk (front ++ (key, w) :: back)).Distinct := hw _ (.self _)
    rw [distinctKeys_object_iff, List.forall_mem_append, List.forall_mem_cons] at hv
    rw [withoutNaN_object_iff, List.forall_mem_append, List.forall_mem_cons] at hnan
    rw [equal_object_iff hm hn, Members.agree_iff hm hn, List.forall_mem_append, List.forall_mem_cons]
    refine ⟨by simp [Members.size], fun p hp => ?_, ?_, fun p hp => ?_⟩
    · refine ⟨p.2, hn.find?_of_mem (List.mem_append_left _ hp), ?_⟩
      exact (equal_self_iff (hv.2.1 p hp)).mpr (hnan.1 p hp)
    · exact ⟨w, hn.find?_of_mem (List.mem_append_right _ List.mem_cons_self), ih hv.2.2.1 hnan.2.1⟩
    · refine ⟨p.2, hn.find?_of_mem (List.mem_append_right _ (List.mem_cons_of_mem _ hp)), ?_⟩
      exact (equal_self_iff (hv.2.2.2 p hp)).mpr (hnan.2.2 p hp)
  | trans huv hvw ih ih' =>
    have hv' := huv.distinctKeys hv
    have hequal := ih hv hnan
    have hself := equal_self_of_equal hv' hv (equal_symm hv hv' hequal)
    exact equal_trans hv hv' (hvw.distinctKeys hv') hequal (ih' hv' ((equal_self_iff hv').mp hself))

theorem Rearranged.equal_iff (h : Rearranged v w) (hv : v.DistinctKeys) : v.equal w = true ↔ v.WithoutNaN :=
  ⟨fun hequal => (equal_self_iff hv).mp (equal_self_of_equal hv (h.distinctKeys hv) hequal), h.equal hv⟩

/-- Equality is symmetric and transitive, and a value equals itself exactly without missing numbers. Of two objects it
compares the values under the same keys, in whatever order the pairs were put in, at any depth. -/
theorem equal_order_blind :
    (∀ u v : Value, u.DistinctKeys → v.DistinctKeys → u.equal v = true → v.equal u = true) ∧
    (∀ u v w : Value, u.DistinctKeys → v.DistinctKeys → w.DistinctKeys → u.equal v = true → v.equal w = true →
      u.equal w = true) ∧
    (∀ v : Value, v.DistinctKeys → (v.equal v = true ↔ v.WithoutNaN)) ∧
    (∀ m n : Members Value, m.Distinct → n.Distinct →
      ((object m).equal (object n) = true ↔ m.Agree (fun x y => x.equal y = true) n)) ∧
    ∀ v w : Value, v.DistinctKeys → Rearranged v w → (v.equal w = true ↔ v.WithoutNaN) :=
  ⟨fun _ _ => equal_symm, fun _ _ _ => equal_trans, fun _ => equal_self_iff, fun _ _ => equal_object_iff,
    fun _ _ hv h => h.equal_iff hv⟩

/-- An object in a list, made from two pairs in both orders, and a missing number. -/
theorem equal_order_blind_two_orders :
    (list [object (.ofList [("a", null), ("b", number (.ofBits 0))])]).equal
        (list [object (.ofList [("b", number (.ofBits 0)), ("a", null)])]) = true ∧
      (list [object (.ofList [("b", number (.ofBits 0)), ("a", null)])]).equal
        (list [object (.ofList [("a", null), ("b", number (.ofBits 0))])]) = true ∧
      (list [object (.ofList [("a", null), ("b", number (.ofBits 0))])]).equal
        (list [object (.ofList [("a", null), ("b", number (.ofBits 0))])]) = true ∧
      (Members.ofList [("a", null), ("b", number (.ofBits 0))]).Agree (fun x y => x.equal y = true)
        (.ofList [("b", number (.ofBits 0)), ("a", null)]) ∧
      ¬(number (.ofBits 0x7FF8000000000000)).equal (number (.ofBits 0x7FF8000000000000)) = true := by
  obtain ⟨hsymm, htrans, hself, hobject, hrearranged⟩ := equal_order_blind
  have hkeys : ∀ p ∈ [("a", null), ("b", number (.ofBits 0))], p.2.DistinctKeys := by
    refine List.forall_mem_cons.mpr ⟨?_, List.forall_mem_singleton.mpr ?_⟩ <;> rintro _ ⟨⟩
  have hnan : ∀ p ∈ [("a", null), ("b", number (.ofBits 0))], p.2.WithoutNaN := by
    refine List.forall_mem_cons.mpr ⟨?_, List.forall_mem_singleton.mpr (withoutNaN_number_iff.mpr (by decide))⟩
    rintro _ ⟨⟩
  have hperm : [("a", null), ("b", number (.ofBits 0))].Perm [("b", number (.ofBits 0)), ("a", null)] := .swap _ _ _
  have hpairs := Rearranged.pairs (by decide) hperm
  have hm := distinctKeys_ofList hkeys
  have hv := distinctKeys_list_iff.mpr (List.forall_mem_singleton.mpr hm)
  have hobjectNaN := withoutNaN_object_iff.mpr fun p hp => hnan p (Members.mem_ofList hp)
  have hlist := (hrearranged _ _ hv (@Rearranged.item [] [] _ _ hpairs)).mpr
    (withoutNaN_list_iff.mpr (List.forall_mem_singleton.mpr hobjectNaN))
  have hw := (@Rearranged.item [] [] _ _ hpairs).distinctKeys hv
  have hback := hsymm _ _ hv hw hlist
  have hnumber : (number (.ofBits 0x7FF8000000000000)).DistinctKeys := by rintro _ ⟨⟩
  refine ⟨hlist, hback, htrans _ _ _ hv hw hv hlist hback, ?_, fun h => ?_⟩
  · exact (hobject _ _ (Members.distinct_ofList _) (Members.distinct_ofList _)).mp
      ((hrearranged _ _ hm hpairs).mpr hobjectNaN)
  · exact absurd (withoutNaN_number_iff.mp ((hself _ hnumber).mp h)) (by decide)

/-- A missing number equals nothing, so an object over one differs from itself in any order of its pairs. -/
theorem not_equal_reordered_nan :
    ([("a", number (.ofBits 0x7FF8000000000000)), ("b", null)].map Prod.fst).Nodup ∧
      [("a", number (.ofBits 0x7FF8000000000000)), ("b", null)].Perm
        [("b", null), ("a", number (.ofBits 0x7FF8000000000000))] ∧
      (object (.ofList [("a", number (.ofBits 0x7FF8000000000000)), ("b", null)])).equal
        (object (.ofList [("b", null), ("a", number (.ofBits 0x7FF8000000000000))])) = false :=
  ⟨by decide, .swap _ _ _, by with_unfolding_all rfl⟩

end Value

end RequestDoc

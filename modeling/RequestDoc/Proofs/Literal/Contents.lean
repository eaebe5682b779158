import RequestDoc.Proofs.Literal.Complete
import RequestDoc.Proofs.Literal.Sound
import RequestDoc.Proofs.Rule.Nests
import RequestDoc.Proofs.Value.Printed

/-!
What literals write. Whatever stands in the value of a literal is written by a literal too, so no string and no
missing number stands in it and no object in it has a key twice. A value nests no more deeply than its text, and
less deeply where a member is lost to a later one with the same key.
-/

namespace RequestDoc

open Grammar Nesting

variable {text : List Char} {v : Value}

theorem Nesting.Closed.unique {m n : Nat} (h : Closed text m) (k : Closed text n) : m = n :=
  h.deepest_eq.symm.trans k.deepest_eq

/-! ### What stands in a written value -/

theorem literal_contains {u : Value} (h : Literal text v) (hu : v.Contains u) : ∃ t, Literal t u := by
  induction hu generalizing text with
  | self => exact ⟨text, h⟩
  | item hv _ ih =>
    cases h with
    | list items _ hitems _ _ =>
      obtain ⟨item, hi, rfl⟩ := List.mem_map.mp hv
      exact ih (hitems item hi)
  | member hm _ ih =>
    cases h with
    | object members _ _ hvalues _ _ =>
      obtain ⟨m, hmem, heq⟩ := List.mem_map.mp (Members.mem_ofList hm)
      obtain ⟨-, rfl⟩ := Prod.mk.inj heq
      exact ih (hvalues m hmem)

theorem isNaN_value (n : Numeral) : n.value.isNaN = false :=
  decide_eq_false (Nat.not_lt.mpr n.decimal.magnitude_le)

/-- What a value is like that a literal within the limit writes. -/
structure Value.Written (limit : Nat) (v : Value) : Prop where
  noString : ∀ s, ¬v.Contains (.string s)
  noNaN : ∀ x, v.Contains (.number x) → x.isNaN = false
  distinctKeys : v.DistinctKeys
  nesting : v.nesting ≤ limit

theorem Value.Written.mono {limit limit' : Nat} (h : v.Written limit) (hle : limit ≤ limit') : v.Written limit' :=
  ⟨h.noString, h.noNaN, h.distinctKeys, Nat.le_trans h.nesting hle⟩

/-! ### How deeply a written value nests -/

theorem foldr_max_le {α : Type} {f : α → Nat} {xs : List α} {m : Nat} (h : ∀ x ∈ xs, f x ≤ m) :
    (xs.map f).foldr max 0 ≤ m := by
  induction xs with
  | nil => exact Nat.zero_le m
  | cons x xs ih =>
    exact Nat.max_le.mpr ⟨h x List.mem_cons_self, ih fun y hy => h y (List.mem_cons_of_mem x hy)⟩

theorem nesting_le_of_closed {n : Nat} (h : Literal text v) (hn : Closed text n) : v.nesting ≤ n := by
  induction h generalizing n with
  | number | boolean | null => exact Nat.zero_le n
  | list items hl hitems hsep hr ih =>
    obtain ⟨m, hm, hle⟩ := closed_separated hsep fun text ht => by
      obtain ⟨item, hi, rfl⟩ := List.mem_map.mp ht
      exact closed_literal (hitems item hi)
    obtain rfl := hn.unique (hm.brackets (Or.inl rfl) (Or.inl rfl) hl hr)
    rw [Value.nesting, Value.nestingItems_eq]
    refine Nat.succ_le_succ (foldr_max_le fun u hu => ?_)
    obtain ⟨item, hi, rfl⟩ := List.mem_map.mp hu
    obtain ⟨j, hj⟩ := closed_literal (hitems item hi)
    exact Nat.le_trans (ih item hi hj) (hle _ (List.mem_map_of_mem hi) j hj)
  | object members hl hkeys hvalues hsep hr ih =>
    obtain ⟨m, hm, hle⟩ := closed_separated hsep fun text ht => by
      obtain ⟨member, hmem, rfl⟩ := List.mem_map.mp ht
      obtain ⟨j, hj⟩ := closed_literal (hvalues member hmem)
      exact ⟨j, closed_member (hkeys member hmem).1 (hkeys member hmem).2 hj⟩
    obtain rfl := hn.unique (hm.brackets (Or.inr rfl) (Or.inr rfl) hl hr)
    rw [Value.nesting, Value.nestingMembers_eq]
    refine Nat.succ_le_succ (foldr_max_le fun p hp => ?_)
    obtain ⟨member, hmem, rfl⟩ := List.mem_map.mp (Members.mem_ofList hp)
    obtain ⟨j, hj⟩ := closed_literal (hvalues member hmem)
    have htext := closed_member (hkeys member hmem).1 (hkeys member hmem).2 hj
    exact Nat.le_trans (ih member hmem hj) (hle _ (List.mem_map_of_mem hmem) j htext)

theorem written_of_literal {n : Nat} (h : Literal text v) (hn : Closed text n) : v.Written n where
  noString s hs := by
    obtain ⟨t, ⟨⟩⟩ := literal_contains h hs
  noNaN x hx := by
    obtain ⟨t, ht⟩ := literal_contains h hx
    cases ht with
    | number => exact isNaN_value _
  distinctKeys members hm := by
    obtain ⟨t, ht⟩ := literal_contains h hm
    cases ht with
    | object => exact Members.distinct_ofList _
  nesting := nesting_le_of_closed h hn

/-! ### What is read within a limit -/

namespace Rule

variable {s : Strategy} {c d : Cursor}

theorem literalWithin_eq_ok_within {levels : Nat} (hle : c.depth ≤ c.depthLimit) (hlevels : c.depthLimit < c.depth + levels)
    (h : literalWithin s levels c = .ok (v, d)) :
    ∃ text n, Literal text v ∧ Closed text n ∧ c.depth + n ≤ c.depthLimit ∧ c.Reads text d ∧ Flush d.rest := by
  obtain ⟨text, hliteral, hr, hflush⟩ := readsLiteral_literalWithin h
  obtain ⟨n, hn, hdepth⟩ := (nests_literalWithin s levels).closed_text hle hlevels h hr
  exact ⟨text, n, hliteral, hn, hdepth, hr, hflush⟩

/-- What is read as a literal is one within the limit. -/
theorem literal_eq_ok (hle : c.depth ≤ c.depthLimit) (h : literal s c = .ok (v, d)) :
    ∃ text n, Literal text v ∧ Closed text n ∧ c.depth + n ≤ c.depthLimit ∧ c.Reads text d ∧ Flush d.rest :=
  literalWithin_eq_ok_within hle (by omega) h

end Rule

end RequestDoc

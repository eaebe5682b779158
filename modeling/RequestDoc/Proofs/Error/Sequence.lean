import Mathlib.Data.List.Dedup
import RequestDoc.Proofs.Error.Merge

/-!
Errors merged one after the other. The first error keeps its kind and its place, and only the mismatches at its own
offset add to it: each of their labels once, where it is first seen. Mismatches at one offset can be merged in any
grouping. With different offsets the grouping matters, since an error in the middle may then be dropped together
with what it had taken in.
-/

namespace RequestDoc

namespace Expectation

variable {e f g : Expectation} {label : String}

theorem contains_iff : e.contains label = true ↔ label ∈ e.labels :=
  List.contains_iff_mem

theorem add_of_mem (h : label ∈ e.labels) : e.add label = e :=
  if_pos (contains_iff.mpr h)

theorem add_of_notMem (h : label ∉ e.labels) : e.add label = ⟨e.labels ++ [label]⟩ :=
  if_neg (mt contains_iff.mp h)

/-- A merge appends the labels that are new, each at its first place. -/
theorem labels_merge (e f : Expectation) :
    (e.merge f).labels = e.labels ++ (f.labels.filter (· ∉ e.labels)).eraseDups := by
  obtain ⟨labels⟩ := f
  induction labels generalizing e with
  | nil => simp [merge]
  | cons label labels ih =>
    have hstep : e.merge ⟨label :: labels⟩ = (e.add label).merge ⟨labels⟩ := rfl
    rw [hstep, ih]
    by_cases hmem : label ∈ e.labels
    · simp [add_of_mem hmem, hmem]
    · -- What is new after `label` is what is new and differs from `label`.
      simp [add_of_notMem hmem, hmem, List.eraseDups_cons, List.filter_filter, not_or, and_comm, beq_eq_decide]

theorem merge_of_subset (h : ∀ label ∈ f.labels, label ∈ e.labels) : e.merge f = e := by
  have hnone : f.labels.filter (· ∉ e.labels) = [] := by simpa using h
  have hlabels := labels_merge e f
  rw [hnone, List.eraseDups_nil, List.append_nil] at hlabels
  exact congrArg mk hlabels

theorem merge_append (e : Expectation) (labels labels' : List String) :
    e.merge ⟨labels ++ labels'⟩ = (e.merge ⟨labels⟩).merge ⟨labels'⟩ :=
  List.foldl_append

theorem merge_add (e f : Expectation) (label : String) : e.merge (f.add label) = (e.merge f).add label := by
  by_cases hmem : label ∈ f.labels
  · rw [add_of_mem hmem, add_of_mem (mem_merge.mpr (.inr hmem))]
  · rw [add_of_notMem hmem]
    exact merge_append e f.labels [label]

theorem merge_assoc (e f g : Expectation) : (e.merge f).merge g = e.merge (f.merge g) := by
  obtain ⟨labels⟩ := g
  induction labels generalizing f with
  | nil => rfl
  | cons label labels ih =>
    calc (e.merge f).merge ⟨label :: labels⟩
        = ((e.merge f).add label).merge ⟨labels⟩ := rfl
      _ = (e.merge (f.add label)).merge ⟨labels⟩ := by rw [merge_add]
      _ = e.merge ((f.add label).merge ⟨labels⟩) := ih (f.add label)

end Expectation

namespace ParseError

variable {a b c e : ParseError} {offset : Nat} {place : Position} {expected : Expectation}

/-- The labels that an error adds to a mismatch at an offset. -/
def labelsAt (offset : Nat) : ParseError → List String
  | mismatch offset' _ expected => if offset = offset' then expected.labels else []
  | _ => []

theorem mem_labelsAt {label : String} :
    label ∈ e.labelsAt offset ↔ ∃ place expected, e = mismatch offset place expected ∧ label ∈ expected.labels := by
  cases e with
  | mismatch offset' place expected =>
    by_cases h : offset = offset'
    · simp [labelsAt, h]
    · simp [labelsAt, h, Ne.symm h]
  | _ => simp [labelsAt]

theorem failsAt_iff : e.failsAt offset = true ↔ ∃ place expected, e = mismatch offset place expected := by
  cases e <;> simp [failsAt]

theorem failsAt_of_mem_labelsAt (h : label ∈ e.labelsAt offset) : e.failsAt offset = true := by
  obtain ⟨place, expected, rfl, -⟩ := mem_labelsAt.mp h
  exact failsAt_iff.mpr ⟨place, expected, rfl⟩

theorem labelsAt_eq_nil (h : e.failsAt offset = false) : e.labelsAt offset = [] := by
  refine List.eq_nil_iff_forall_not_mem.mpr fun label hm => ?_
  rw [failsAt_of_mem_labelsAt hm] at h
  cases h

theorem mismatch_merge : (mismatch offset place expected).merge e = mismatch offset place (expected.merge ⟨e.labelsAt offset⟩) := by
  cases e with
  | mismatch offset' place' expected' =>
    simp only [merge, labelsAt]
    split <;> rfl
  | _ => rfl

theorem labelsAt_merge_subset (a b : ParseError) (offset : Nat) :
    (a.merge b).labelsAt offset ⊆ a.labelsAt offset ++ b.labelsAt offset := by
  intro label hm
  cases a with
  | mismatch offset' place expected =>
    rw [mismatch_merge] at hm
    obtain ⟨_, _, heq, hlabel⟩ := mem_labelsAt.mp hm
    cases heq
    rcases Expectation.mem_merge.mp hlabel with hl | hl
    · exact List.mem_append_left _ (mem_labelsAt.mpr ⟨_, _, rfl, hl⟩)
    · exact List.mem_append_right _ hl
  | _ => exact List.mem_append_left _ hm

theorem merge_eq_self (h : a.isMismatch = false) : a.merge b = a := by
  cases a with
  | mismatch => cases h
  | _ => rfl

theorem failsAt_merge (k : Nat) : (a.merge b).failsAt k = a.failsAt k := by
  cases a with
  | mismatch => rw [mismatch_merge]; rfl
  | _ => rfl

/-- A merge can be regrouped where the first two errors are mismatches at one offset. -/
theorem merge_assoc (ha : a.failsAt offset = true) (hb : b.failsAt offset = true) :
    (a.merge b).merge c = a.merge (b.merge c) := by
  obtain ⟨place, expected, rfl⟩ := failsAt_iff.mp ha
  obtain ⟨place', expected', rfl⟩ := failsAt_iff.mp hb
  simp only [mismatch_merge, labelsAt, if_true, Expectation.merge_assoc]

/-- With another offset in the middle the grouping matters. -/
example :
    ((mismatch 0 .first (.one "a")).merge (mismatch 1 .first (.one "b"))).merge (mismatch 0 .first (.one "c")) ≠
      (mismatch 0 .first (.one "a")).merge ((mismatch 1 .first (.one "b")).merge (mismatch 0 .first (.one "c"))) := by
  decide

/-! ### Sequences -/

theorem foldl_merge_eq_self (h : e.isMismatch = false) (es : List ParseError) : es.foldl merge e = e := by
  induction es with
  | nil => rfl
  | cons e' es ih => rw [List.foldl_cons, merge_eq_self h, ih]

/-- A sequence of merges is one merge with the labels of all mismatches at the offset of the first error. -/
theorem foldl_mismatch_merge (es : List ParseError) :
    es.foldl merge (mismatch offset place expected) =
      mismatch offset place (expected.merge ⟨es.flatMap (labelsAt offset)⟩) := by
  induction es generalizing expected with
  | nil => rfl
  | cons e es ih => rw [List.foldl_cons, mismatch_merge, ih, List.flatMap_cons, Expectation.merge_append]

theorem failsAt_foldl_merge (k : Nat) (es : List ParseError) : (es.foldl merge e).failsAt k = e.failsAt k := by
  induction es generalizing e with
  | nil => rfl
  | cons e' es ih => rw [List.foldl_cons, ih, failsAt_merge]

theorem Distinct.foldl_merge (h : e.Distinct) (es : List ParseError) : (es.foldl ParseError.merge e).Distinct := by
  induction es generalizing e with
  | nil => exact h
  | cons e' es ih => exact ih (h.merge e')

theorem foldl_merge_merge_of_mem {e' : ParseError} {es : List ParseError} (h : e' ∈ e :: es) :
    (es.foldl merge e).merge e' = es.foldl merge e := by
  cases e with
  | mismatch offset place expected =>
    -- Every label of `e'` at this offset is there already: it is one of the first error or one of the sequence.
    have hsubset : ∀ label ∈ e'.labelsAt offset, label ∈ (expected.merge ⟨es.flatMap (labelsAt offset)⟩).labels := by
      intro label hlabel
      rw [Expectation.mem_merge]
      rcases List.mem_cons.mp h with rfl | hmem
      · left
        simpa [labelsAt] using hlabel
      · right
        exact List.mem_flatMap.mpr ⟨e', hmem, hlabel⟩
    rw [foldl_mismatch_merge, mismatch_merge]
    exact congrArg (mismatch offset place) (Expectation.merge_of_subset hsubset)
  | _ => rw [foldl_merge_eq_self rfl, merge_eq_self rfl]

/-! ### Groupings -/

/-- A way to group the merges of a sequence of errors. -/
inductive Grouping where
  | one (error : ParseError)
  | both (left right : Grouping)

namespace Grouping

/-- The errors in their order. -/
def errors : Grouping → List ParseError
  | one error => [error]
  | both left right => left.errors ++ right.errors

/-- The merged error. -/
def merged : Grouping → ParseError
  | one error => error
  | both left right => left.merged.merge right.merged

theorem exists_errors_eq_cons (grouping : Grouping) : ∃ e es, grouping.errors = e :: es := by
  induction grouping with
  | one error => exact ⟨error, [], rfl⟩
  | both left right ihLeft ihRight =>
    obtain ⟨e, es, hleft⟩ := ihLeft
    exact ⟨e, es ++ right.errors, by rw [errors, hleft, List.cons_append]⟩

end Grouping

/-- Merging with a merged sequence is going on with the sequence. -/
theorem merge_foldl_merge {es : List ParseError} (ha : a.failsAt offset = true) (hb : b.failsAt offset = true) :
    a.merge (es.foldl merge b) = es.foldl merge (a.merge b) := by
  induction es generalizing b with
  | nil => rfl
  | cons c es ih =>
    rw [List.foldl_cons, List.foldl_cons, merge_assoc ha hb]
    exact ih ((failsAt_merge offset).trans hb)

/-- Mismatches at one offset merge to the same error in every grouping. -/
theorem Grouping.merged_eq_foldl {grouping : Grouping} {es : List ParseError} (herrors : grouping.errors = e :: es)
    (hsame : ∀ e' ∈ e :: es, e'.failsAt offset = true) : grouping.merged = es.foldl merge e := by
  induction grouping generalizing e es with
  | one error =>
    obtain ⟨rfl, rfl⟩ := List.cons.inj herrors
    rfl
  | both left right ihLeft ihRight =>
    obtain ⟨l, ls, hleft⟩ := left.exists_errors_eq_cons
    obtain ⟨r, rs, hright⟩ := right.exists_errors_eq_cons
    have hall : l :: (ls ++ r :: rs) = e :: es := by
      rw [← herrors, errors, hleft, hright, List.cons_append]
    obtain ⟨rfl, rfl⟩ := List.cons.inj hall
    have hl : ∀ e' ∈ l :: ls, e'.failsAt offset = true := fun e' h => hsame e' (by
      rw [← List.cons_append]; exact List.mem_append_left _ h)
    have hr : ∀ e' ∈ r :: rs, e'.failsAt offset = true := fun e' h => hsame e' (by
      rw [← List.cons_append]; exact List.mem_append_right _ h)
    calc left.merged.merge right.merged
        = (ls.foldl merge l).merge (rs.foldl merge r) := by rw [ihLeft hleft hl, ihRight hright hr]
      _ = rs.foldl merge ((ls.foldl merge l).merge r) :=
          merge_foldl_merge ((failsAt_foldl_merge offset ls).trans (hl l List.mem_cons_self)) (hr r List.mem_cons_self)
      _ = (ls ++ r :: rs).foldl merge l := by rw [List.foldl_append, List.foldl_cons]

/-! ### The laws of a sequence of merges -/

/-- What is left of a first error after the errors of a list were merged into it one after the other. -/
structure MergedInto (e : ParseError) (es : List ParseError) (m : ParseError) : Prop where
  other : e.isMismatch = false → m = e
  labels : ∀ offset place expected, e = mismatch offset place expected →
    m = mismatch offset place
      ⟨expected.labels ++ ((es.flatMap (labelsAt offset)).filter (· ∉ expected.labels)).eraseDups⟩
  contains : ∀ offset place expected, e = mismatch offset place expected →
    ∃ expected', m = mismatch offset place expected' ∧ ∀ label, expected'.contains label = true ↔
      expected.contains label = true ∨
        ∃ place' added, mismatch offset place' added ∈ es ∧ added.contains label = true
  distinct : e.Distinct → m.Distinct
  again : ∀ e' ∈ e :: es, m.merge e' = m
  regrouped : ∀ offset, (∀ e' ∈ e :: es, e'.failsAt offset = true) →
    ∀ grouping : Grouping, grouping.errors = e :: es → grouping.merged = m
  failsAt : ∀ k, m.failsAt k = e.failsAt k

/-- Errors merged in sequence obey all these laws, whatever their kinds, offsets and labels are. -/
theorem foldl_merge_laws (e : ParseError) (es : List ParseError) : MergedInto e es (es.foldl merge e) where
  other h := foldl_merge_eq_self h es
  labels := by
    rintro offset place expected rfl
    rw [foldl_mismatch_merge, ← Expectation.labels_merge expected ⟨es.flatMap (labelsAt offset)⟩]
  contains := by
    rintro offset place expected rfl
    refine ⟨_, foldl_mismatch_merge es, fun label => ?_⟩
    simp only [Expectation.contains_iff, Expectation.mem_merge, List.mem_flatMap, mem_labelsAt]
    refine or_congr_right ⟨?_, ?_⟩
    · rintro ⟨e', hmem, place', added, rfl, hlabel⟩
      exact ⟨place', added, hmem, hlabel⟩
    · rintro ⟨place', added, hmem, hlabel⟩
      exact ⟨_, hmem, place', added, rfl, hlabel⟩
  distinct h := h.foldl_merge es
  again _ h := foldl_merge_merge_of_mem h
  regrouped _ hsame _ herrors := Grouping.merged_eq_foldl herrors hsame
  failsAt k := failsAt_foldl_merge k es

end ParseError

end RequestDoc

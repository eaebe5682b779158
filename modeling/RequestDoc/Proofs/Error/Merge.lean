import Mathlib.Data.List.Nodup
import RequestDoc.Error.ParseError

/-!
Merged expectations. Merging keeps every label of both sides and brings in no other one, and it never repeats a label.
-/

namespace RequestDoc

namespace Expectation

variable {e f : Expectation} {label : String}

theorem mem_add {added : String} : label ∈ (e.add added).labels ↔ label ∈ e.labels ∨ label = added := by
  unfold add contains
  split
  next h =>
    rw [List.contains_iff_mem] at h
    exact ⟨Or.inl, fun h' => h'.elim id fun heq => heq ▸ h⟩
  · rw [List.mem_append, List.mem_singleton]

theorem nodup_add (h : e.labels.Nodup) (added : String) : (e.add added).labels.Nodup := by
  unfold add contains
  split
  · exact h
  next hnew =>
    rw [List.contains_iff_mem] at hnew
    exact List.nodup_append.mpr ⟨h, List.nodup_singleton added, fun x hx y hy heq =>
      hnew (List.mem_singleton.mp hy ▸ heq ▸ hx)⟩

theorem mem_merge : label ∈ (e.merge f).labels ↔ label ∈ e.labels ∨ label ∈ f.labels := by
  have hfold : ∀ labels : List String, ∀ e : Expectation,
      label ∈ (labels.foldl add e).labels ↔ label ∈ e.labels ∨ label ∈ labels := by
    intro labels
    induction labels with
    | nil => intro e; simp
    | cons added labels ih =>
      intro e
      rw [List.foldl_cons, ih, mem_add, List.mem_cons, or_assoc]
  exact hfold f.labels e

theorem nodup_merge (h : e.labels.Nodup) (f : Expectation) : (e.merge f).labels.Nodup := by
  have hfold : ∀ labels : List String, ∀ e : Expectation, e.labels.Nodup → (labels.foldl add e).labels.Nodup := by
    intro labels
    induction labels with
    | nil => exact fun _ h => h
    | cons added labels ih => exact fun e h => ih (e.add added) (nodup_add h added)
  exact hfold f.labels e h

theorem nodup_one (label : String) : (one label).labels.Nodup :=
  List.nodup_singleton label

end Expectation

/-- The error repeats no label of what was expected. -/
def ParseError.Distinct : ParseError → Prop
  | mismatch _ _ expected => expected.labels.Nodup
  | _ => True

theorem ParseError.Distinct.merge {err : ParseError} (h : err.Distinct) (other : ParseError) : (err.merge other).Distinct := by
  cases err with
  | mismatch offset place expected =>
    cases other with
    | mismatch offset' place' expected' =>
      simp only [ParseError.merge]
      split
      · exact Expectation.nodup_merge h expected'
      · exact h
    | _ => exact h
  | _ => trivial

end RequestDoc

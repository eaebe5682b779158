import RequestDoc.Proofs.Rule.Viable
import RequestDoc.Proofs.TypeRef.Exact

/-!
Type references that break off. Where a reference breaks off, a name or a closing bracket is missing, so what was read
of it is the start of a reference within the limit.
-/

namespace RequestDoc

open Grammar

variable {s : Strategy} {c d : Cursor} {limit : Nat}

/-- The text writes a reference with lists within the limit. -/
def Grammar.ReferenceWithin (limit : Nat) (text : List Char) : Prop :=
  ∃ t, Reference text t ∧ t.depth ≤ limit

theorem referenceWithin_name (limit : Nat) : ReferenceWithin limit ['a'] :=
  ⟨.named ⟨"a"⟩ false, reference_chars (Lexeme.isName_of_all rfl rfl), Nat.zero_le limit⟩

theorem referenceWithin_list {left inner : List Char} (hl : Punctuation .openBracket left) (h : ReferenceWithin limit inner) :
    ReferenceWithin (limit + 1) (left ++ (inner ++ Token.closeBracket.text.toList)) := by
  obtain ⟨t, ⟨hname, hwords⟩, hdepth⟩ := h
  have hnomark : SpacedAll (TypeRef.markWords false) [] := .nil
  have hlist := TypeRef.spacedAll_list_iff.mpr ⟨left, inner, _, [], hl, hwords, .self _, hnomark, rfl⟩
  rw [List.append_nil] at hlist
  exact ⟨.list t false, ⟨hname, hlist⟩, Nat.succ_le_succ hdepth⟩

namespace Rule

theorem referenceWithin_of_ok (hle : c.depth ≤ c.depthLimit) {levels : Nat} {t : TypeRef}
    (h : typeRefWithin s levels c = .ok (t, d)) : ∃ text, ReferenceWithin c.room text ∧ c.Reads text d := by
  obtain ⟨text, hreference, hr, -, hdepth⟩ := reference_of_typeRefWithin h
  have := hdepth hle
  exact ⟨text, ⟨t, hreference, by unfold Cursor.room; omega⟩, hr⟩

theorem viable_typeRefWithin {levels : Nat} (hle : c.depth ≤ c.depthLimit) (hlevels : c.room < levels) :
    (typeRefWithin s levels).Viable c (ReferenceWithin c.room) := by
  induction levels generalizing c with
  | zero => exact absurd hlevels (Nat.not_lt_zero _)
  | succ levels ih =>
    have hname : ∃ text, ReferenceWithin c.room text := ⟨_, referenceWithin_name _⟩
    have hmark {e Whole} {f : Bool → TypeRef} :
        (do let required ← tokenIf .bang; return f required : Rule TypeRef).Viable e Whole :=
      (viable_tokenIf .bang).bind (moves_tokenIf .bang) fun _ _ => viable_pure _
    refine viable_choice (fun rule hmem => ?_) hname
    obtain ⟨f, -, rfl⟩ := List.mem_map.mp hmem
    cases f with
    | named => exact viable_name_bind hname fun _ _ _ => hmark
    | list =>
      refine viable_token_bind hname fun {c1 left} _ hl h1 _ => Viable.nested fun hlt => ?_
      have hroom := (Cursor.room_withDepth hlt).trans h1.room
      have hle' : (c1.withDepth (c1.depth + 1)).depth ≤ (c1.withDepth (c1.depth + 1)).depthLimit := hlt
      generalize c1.withDepth (c1.depth + 1) = d at hroom hle'
      have hwhole {inner} (hinner : ReferenceWithin d.room inner) :
          ReferenceWithin c.room (left ++ (inner ++ Token.closeBracket.text.toList)) :=
        hroom ▸ referenceWithin_list hl hinner
      refine Viable.bind ((ih hle' (by omega)).extend fun inner hinner => ⟨_, hwhole hinner⟩) (moves_typeRefWithin s levels)
        fun hread h2 => viable_token_bind ?_ fun _ _ _ _ => hmark
      obtain ⟨text, htext, h2'⟩ := referenceWithin_of_ok hle' hread
      rw [h2.text_unique h2']
      exact ⟨_, hwhole htext⟩

/-- What is read of a type reference is the start of one within the limit. -/
theorem viable_typeRef (hle : c.depth ≤ c.depthLimit) : (typeRef s).Viable c (ReferenceWithin c.room) :=
  fun err herr => viable_typeRefWithin hle (Nat.lt_succ_self _) err herr

end Rule

end RequestDoc

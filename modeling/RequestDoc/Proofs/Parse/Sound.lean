import RequestDoc.Proofs.Cursor.Session
import RequestDoc.Proofs.Rule.Script

/-!
Every cursor is sound. Whatever is done with a cursor from before a text on, and wherever in a rule of the grammar a parse
stands, the cursor belongs to the text, stands at its place, and finds the slices that it takes; and a mismatch names
a place of the text at or behind the cursor where the failing step started.
-/

namespace RequestDoc

variable {α : Type} {limits : Limits} {text : String} {depthLimit : Nat} {c : Cursor}

/-- The session after the actions: all its cursors are sound, the number of open brackets is set by the actions that set
it and by no other one, and an action that fails names a place of the text at or behind the current cursor. -/
structure Session.Sound (text : String) (depthLimit : Nat) (actions : List Action) (s : Session) : Prop where
  cursors : ∀ c ∈ s.cursors, c.Sound text depthLimit ∧ (c.depth = 0 ∨ .withDepth c.depth ∈ actions)
  depth : ∀ {action t}, s.step action = .ok t →
    ∀ d ∈ t.cursors, d ∈ s.cursors ∨ d.depth = s.current.depth ∨ action = .withDepth d.depth
  mismatch : ∀ {action m}, s.step action = .error m → s.current.offset ≤ m.offset ∧ Located text m.offset m.position

/-- The outcome comes of running the script at the cursor, and every part of the script that is run starts at a sound
cursor, at or behind that one and within the limit of brackets, and comes to what such a step may come to. -/
structure Script.Explains (x : Script α) (c : Cursor) (outcome : Except ParseError α) : Prop where
  outcome_eq : outcome = Prod.fst <$> x.run Strategy.standard.retry c
  parts : ∀ {β : Type} {y : Script β} {d : Cursor}, x.Starts Strategy.standard.retry c y d →
    d.Sound c.text c.depthLimit ∧ c.offset ≤ d.offset ∧ d.depth ≤ d.depthLimit ∧ d.Keeps (y.run Strategy.standard.retry d)

theorem Session.sound_run (text : String) (depthLimit : Nat) (actions : List Action) :
    ((start text depthLimit).run actions).Sound text depthLimit actions := by
  have hfollows := (follows_start text depthLimit).run actions
  refine ⟨fun c hc => ⟨(hfollows c hc).1.sound, (hfollows c hc).2⟩, fun h d hd => ?_, fun h => ?_⟩
  · exact (cursors_of_step h hd).imp_right And.right
  have hreaches := (hfollows _ List.mem_cons_self).1
  have hlocated := located_of_step (hreaches.valid (Cursor.valid_start text depthLimit)) h
  rwa [hreaches.same.1] at hlocated

theorem Script.explains {x : Script α} (hc : c.Valid) (hdepth : c.depth ≤ c.depthLimit) {outcome : Except ParseError α}
    (h : outcome = Prod.fst <$> x.run Strategy.standard.retry c) : x.Explains c outcome where
  outcome_eq := h
  parts {_ y d} hy := by
    have hd := hy.onward
    have hsound := (hd.valid hc).sound
    rw [hd.text, hd.limit] at hsound
    exact ⟨hsound, hd.offset, hd.depth hdepth, Cursor.keeps_of_moves y.moves_run (hd.valid hc)⟩

/-- Every cursor of a session and of a parse is sound, and so is every place that an error names. In a text of less
than 2⁶⁰ bytes no place has a line or a column of 2⁶⁴ or more. -/
theorem cursors_sound (text : String) :
    (∀ depthLimit actions, ((Session.start text depthLimit).run actions).Sound text depthLimit actions) ∧
    (∀ limits c, Cursor.open? limits text = .ok c →
      c.Sound text limits.depth ∧
      (Script.literal .standard).toEnd.Explains c (Value.parse limits text) ∧
      (Script.typeRef .standard).toEnd.Explains c (TypeRef.parse limits text) ∧
      (Script.document .standard).Explains c (Document.parse limits text)) ∧
    (text.utf8ByteSize < Nat.pow 2 60 → ∀ offset place, Located text offset place →
      place.line < Nat.pow 2 64 ∧ place.column < Nat.pow 2 64) := by
  refine ⟨Session.sound_run text, fun limits c hopen => ?_, fun hsize offset place h => h.fits hsize⟩
  have hvalid : c.Valid := Cursor.valid_of_open? hopen
  obtain rfl := Cursor.eq_entry_of_open? hopen
  have hdepth : (Cursor.entry limits text).depth ≤ (Cursor.entry limits text).depthLimit := Nat.zero_le _
  refine ⟨hvalid.sound, Script.explains hvalid hdepth ?_, Script.explains hvalid hdepth ?_, Script.explains hvalid hdepth ?_⟩
  · rw [Script.run_toEnd, Script.run_literal, Value.parse, Value.parseBy, Rule.parse_eq_result, Rule.result_of_open? hopen]
  · rw [Script.run_toEnd, Script.run_typeRef, TypeRef.parse, TypeRef.parseBy, Rule.parse_eq_result, Rule.result_of_open? hopen]
  · rw [Script.run_document, Document.parse_eq_result, Rule.result_of_open? hopen]

/-- A list that breaks off at a quoted text with a character of two bytes. -/
theorem cursors_sound_list :
    ((Session.start "[\"é\" 1" 8).run [.save, .read (.token .openBracket), .withDepth 1, .read .quoted, .restore 0]).Sound
        "[\"é\" 1" 8 [.save, .read (.token .openBracket), .withDepth 1, .read .quoted, .restore 0] ∧
      Cursor.open? ⟨64, 8⟩ "[\"é\" 1" = .ok (Cursor.entry ⟨64, 8⟩ "[\"é\" 1") ∧
      (Script.literal .standard).toEnd.Explains (Cursor.entry ⟨64, 8⟩ "[\"é\" 1") (Value.parse ⟨64, 8⟩ "[\"é\" 1") ∧
      "[\"é\" 1".utf8ByteSize < Nat.pow 2 60 ∧ Position.first.line < Nat.pow 2 64 ∧ Position.first.column < Nat.pow 2 64 := by
  obtain ⟨hsessions, hparses, hfits⟩ := cursors_sound "[\"é\" 1"
  have hopen : Cursor.open? ⟨64, 8⟩ "[\"é\" 1" = .ok (Cursor.entry ⟨64, 8⟩ "[\"é\" 1") := Cursor.open?_of_size (by decide)
  have hstart : Located "[\"é\" 1" 0 .first := (Cursor.valid_start "[\"é\" 1" 8).located
  exact ⟨hsessions 8 _, hopen, (hparses _ _ hopen).2.1, by decide, hfits (by decide) _ _ hstart⟩

end RequestDoc

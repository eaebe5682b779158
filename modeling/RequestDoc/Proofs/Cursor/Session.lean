import RequestDoc.Lexeme.Run
import RequestDoc.Proofs.Cursor.Sound

/-!
Sessions with a cursor. A session starts before a text; its actions read lexemes, skip blanks, set the number of open
brackets, save the cursor and go back to a saved one. A lexeme that does not come next leaves the session as it was.
Whatever is done, every cursor of a session is reached from the one before the text.
-/

namespace RequestDoc

/-- What can be done with a cursor. -/
inductive Action : Type 1 where
  | read {α : Type} (kind : Lexeme.Kind α)
  | skipBlanks
  | withDepth (depth : Nat)
  | save
  | restore (index : Nat)

/-- A cursor, and the cursors that were saved, the last one first. -/
structure Session where
  current : Cursor
  saved : List Cursor

namespace Session

/-- The session before a text. -/
def start (text : String) (depthLimit : Nat) : Session :=
  ⟨.start text depthLimit, []⟩

/-- All cursors of a session. -/
def cursors (s : Session) : List Cursor :=
  s.current :: s.saved

/-- One action. Going back to a cursor that was not saved changes nothing. -/
def step (s : Session) : Action → Except Mismatch Session
  | .read kind =>
    match kind.read s.current with
    | .ok (_, next) => .ok { s with current := next }
    | .error m => .error m
  | .skipBlanks => .ok { s with current := s.current.skipBlanks }
  | .withDepth depth => .ok { s with current := s.current.withDepth depth }
  | .save => .ok { s with saved := s.current :: s.saved }
  | .restore index => .ok { s with current := s.saved[index]?.getD s.current }

/-- Actions one after the other. -/
def run (s : Session) : List Action → Session
  | [] => s
  | action :: actions =>
    match s.step action with
    | .ok t => t.run actions
    | .error _ => s.run actions

end Session

/-! ### Steps -/

theorem Cursor.Passes.same {c d : Cursor} {word : List Char} (h : c.Passes word d) :
    d.text = c.text ∧ d.depthLimit = c.depthLimit := by
  obtain ⟨-, rfl⟩ := h
  exact ⟨rfl, rfl⟩

/-- No step leaves the text or changes the limit. -/
theorem Cursor.Step.same {c d : Cursor} (h : c.Step d) : d.text = c.text ∧ d.depthLimit = c.depthLimit := by
  cases h with
  | token t h => exact (Lexeme.token_eq_ok h).same
  | name h => exact (Lexeme.name_eq_ok h).same
  | number h =>
    obtain ⟨n, -, -, hp⟩ := Lexeme.number_eq_ok h
    exact hp.same
  | quoted h =>
    obtain ⟨raw, -, hp⟩ := Lexeme.quoted_eq_ok h
    exact hp.same
  | endOfInput h =>
    obtain ⟨rfl, -⟩ := Lexeme.endOfInput_eq_ok h
    exact ⟨rfl, rfl⟩
  | skipBlanks => exact ⟨rfl, rfl⟩
  | withDepth depth => exact ⟨rfl, rfl⟩

theorem Cursor.Reaches.same {c d : Cursor} (h : c.Reaches d) : d.text = c.text ∧ d.depthLimit = c.depthLimit := by
  induction h with
  | start => exact ⟨rfl, rfl⟩
  | step _ hs ih => exact ⟨hs.same.1.trans ih.1, hs.same.2.trans ih.2⟩

/-- What a run from before a text reaches is sound. -/
theorem Cursor.Reaches.sound {text : String} {depthLimit : Nat} {c : Cursor} (h : (Cursor.start text depthLimit).Reaches c) :
    c.Sound text depthLimit := by
  have hsound := (h.valid (Cursor.valid_start text depthLimit)).sound
  rwa [h.same.1, h.same.2] at hsound

namespace Session

variable {s t : Session} {action : Action} {text : String} {depthLimit : Nat}

/-- A lexeme that is read is a step of the cursor. -/
theorem step_of_read {α : Type} {kind : Lexeme.Kind α} {c d : Cursor} {a : α} (h : kind.read c = .ok (a, d)) : c.Step d := by
  cases kind with
  | token t => exact .token t h
  | name => exact .name h
  | number => exact .number h
  | quoted => exact .quoted h
  | endOfInput => exact .endOfInput h

/-- An action brings at most one cursor that was not there: one step from the current one, with as many brackets open
unless the action sets their number. -/
theorem cursors_of_step (h : s.step action = .ok t) {d : Cursor} (hd : d ∈ t.cursors) :
    d ∈ s.cursors ∨ s.current.Step d ∧ (d.depth = s.current.depth ∨ action = .withDepth d.depth) := by
  -- the saved cursors stay as they are
  have hnew {next : Cursor} (hd : d ∈ next :: s.saved) : d = next ∨ d ∈ s.cursors :=
    (List.mem_cons.mp hd).imp_right (List.mem_cons_of_mem _)
  cases action with
  | read kind =>
    simp only [step] at h
    split at h
    next a next hr =>
      obtain rfl := Except.ok.inj h
      rcases hnew hd with rfl | hd
      · obtain ⟨read, hreads⟩ := kind.moves.reads (Rule.lexeme_eq_ok.mpr hr)
        exact Or.inr ⟨step_of_read hr, Or.inl hreads.depth⟩
      · exact Or.inl hd
    · cases h
  | skipBlanks =>
    obtain rfl := Except.ok.inj h
    rcases hnew hd with rfl | hd
    · exact Or.inr ⟨.skipBlanks _, Or.inl rfl⟩
    · exact Or.inl hd
  | withDepth depth =>
    obtain rfl := Except.ok.inj h
    rcases hnew hd with rfl | hd
    · exact Or.inr ⟨.withDepth _ _, Or.inr rfl⟩
    · exact Or.inl hd
  | save =>
    obtain rfl := Except.ok.inj h
    rcases List.mem_cons.mp hd with rfl | hd
    · exact Or.inl List.mem_cons_self
    · exact Or.inl hd
  | restore index =>
    obtain rfl := Except.ok.inj h
    rcases hnew hd with rfl | hd
    · cases hi : s.saved[index]? with
      | none => exact Or.inl List.mem_cons_self
      | some c => exact Or.inl (List.mem_cons_of_mem _ (List.mem_of_getElem? hi))
    · exact Or.inl hd

/-- What a mismatch of an action says. -/
theorem located_of_step {m : Mismatch} (hc : s.current.Valid) (h : s.step action = .error m) :
    s.current.offset ≤ m.offset ∧ Located s.current.text m.offset m.position := by
  cases action with
  | read kind =>
    simp only [step] at h
    split at h
    · cases h
    next m' hr =>
      obtain rfl := Except.error.inj h
      exact Lexeme.Kind.located_of_error hc hr
  | skipBlanks => cases h
  | withDepth depth => cases h
  | save => cases h
  | restore index => cases h

/-! ### Runs -/

/-- After the actions, every cursor is reached from the one before the text, and its brackets were set by an action
unless there are none. -/
def Follows (text : String) (depthLimit : Nat) (actions : List Action) (s : Session) : Prop :=
  ∀ c ∈ s.cursors, (Cursor.start text depthLimit).Reaches c ∧ (c.depth = 0 ∨ .withDepth c.depth ∈ actions)

theorem follows_start (text : String) (depthLimit : Nat) : (start text depthLimit).Follows text depthLimit [] := by
  intro c hc
  obtain rfl := List.mem_singleton.mp hc
  exact ⟨.start, Or.inl rfl⟩

theorem Follows.skip {actions : List Action} (h : s.Follows text depthLimit actions) (action : Action) :
    s.Follows text depthLimit (actions ++ [action]) :=
  fun c hc => ⟨(h c hc).1, (h c hc).2.imp_right (List.mem_append_left _)⟩

theorem Follows.step {actions : List Action} (h : s.Follows text depthLimit actions) (ht : s.step action = .ok t) :
    t.Follows text depthLimit (actions ++ [action]) := by
  intro d hd
  rcases cursors_of_step ht hd with hd | ⟨hstep, hdepth⟩
  · exact h.skip action d hd
  · obtain ⟨hreaches, hset⟩ := h s.current List.mem_cons_self
    refine ⟨hreaches.step hstep, ?_⟩
    rcases hdepth with hdepth | rfl
    · rw [hdepth]
      exact hset.imp_right (List.mem_append_left _)
    · exact Or.inr (List.mem_append_right _ List.mem_cons_self)

theorem Follows.run {before : List Action} (h : s.Follows text depthLimit before) (actions : List Action) :
    (s.run actions).Follows text depthLimit (before ++ actions) := by
  induction actions generalizing s before with
  | nil => rwa [List.append_nil]
  | cons action actions ih =>
    rw [Session.run, ← List.singleton_append, ← List.append_assoc]
    split
    next t ht => exact ih (h.step ht)
    · exact ih (h.skip action)

end Session

end RequestDoc

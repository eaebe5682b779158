import RequestDoc.Proofs.Literal.Contents
import RequestDoc.Proofs.Rule.Viable

/-!
Literals that break off. Whatever a quoted text breaks off at, what was read of it is the start of a quoted text, and
by induction on the levels what was read of a literal is the start of a literal within the limit. Open quotes, a
member without its value and open brackets are made whole in this order.
-/

namespace RequestDoc

open Grammar Nesting

variable {α γ : Type} {s : Strategy} {c d : Cursor} {limit : Nat}

/-! ### Quoted texts -/

theorem Quoted.scanBody_broken {text read cs r : List Char} {fault : Fault} (h : scanBody text read cs = .broken fault r) :
    ∃ raw decoded rest, Body raw decoded ∧ r ++ rest = read.reverse ++ raw ++ ['"'] := by
  fun_induction scanBody text read cs with
  | case1 text read =>
    obtain ⟨-, rfl⟩ := Outcome.broken.inj h
    exact ⟨[], [], ['"'], .nil, by rw [List.append_nil]⟩
  | case2 => cases h
  | case3 text read rest fault' hfault =>
    -- an escape with a fault breaks off behind its backslash, so another one can stand there
    obtain ⟨-, rfl⟩ := Outcome.broken.inj h
    exact ⟨['\\', 'n'] ++ [], ['\n'], ['n', '"'], .cons (.short (by decide)) .nil, by simp⟩
  | case4 text read rest x n hx _ ih =>
    obtain ⟨raw, decoded, more, hbody, heq⟩ := ih h
    obtain ⟨-, hstands⟩ := escape_eq_ok hx
    exact ⟨_, _, more, .cons hstands hbody, by rw [heq]; simp⟩
  | case5 text read x rest hq hb ih =>
    obtain ⟨raw, decoded, more, hbody, heq⟩ := ih h
    exact ⟨_, _, more, .cons (.plain hq hb) hbody, by rw [heq]; simp⟩

/-- A quoted text that breaks off could be closed. -/
theorem Quoted.scan_broken {cs r : List Char} {fault : Fault} (h : scan cs = .broken fault r) :
    ∃ raw decoded rest, Body raw decoded ∧ r ++ rest = '"' :: (raw ++ ['"']) := by
  unfold scan at h
  split at h
  · exact scanBody_broken h
  · obtain ⟨-, rfl⟩ := Outcome.broken.inj h
    exact ⟨[], [], ['"', '"'], .nil, rfl⟩

namespace Rule

theorem viable_quoted : (lexeme Lexeme.quoted).Viable c fun text => ∃ key, Key text key := by
  intro err herr
  obtain ⟨m, hm, rfl⟩ := lexeme_eq_error.mp herr
  unfold Lexeme.quoted at hm
  split at hm
  · cases hm
  next fault read hscan =>
    obtain rfl := Except.error.inj hm
    obtain ⟨rest, hrest⟩ := Lexeme.scan_eq_broken hscan
    obtain ⟨raw, decoded, more, hbody, hwhole⟩ := Quoted.scan_broken hscan
    have hkey : Key (read ++ more) (String.ofList decoded) := by
      rw [hwhole]
      exact ⟨raw, by rwa [String.toList_ofList], .self _⟩
    exact .mismatch (.one fault.label) (.of_rest hrest.symm) ⟨_, hkey⟩

end Rule

/-! ### Literals within a limit -/

/-- The text writes a literal with brackets within the limit. -/
structure Grammar.LiteralWithin (limit : Nat) (text : List Char) : Prop where
  literal : ∃ v, Literal text v
  closed : ClosedWithin limit text

theorem literalWithin_null (limit : Nat) : LiteralWithin limit Token.nullWord.text.toList where
  literal := ⟨.null, .null (.self _)⟩
  closed := ⟨0, Plain.closed (by decide), Nat.zero_le limit⟩

/-- The member is written with a value within the limit. -/
structure Grammar.Member.Within (limit : Nat) (m : Member) : Prop where
  words : Key m.keyText m.key ∧ Punctuation .colon m.colon
  value : Literal m.valueText m.value
  closed : ClosedWithin limit m.valueText

theorem Grammar.Member.Within.closed_text {m : Member} (h : m.Within limit) : ClosedWithin limit m.text := by
  obtain ⟨n, hn, hle⟩ := h.closed
  exact ⟨n, closed_member h.words.1 h.words.2 hn, hle⟩

theorem literalWithin_list {left inner : List Char} {items : List (List Char × Value)} (hl : Punctuation .openBracket left)
    (h : ∀ item ∈ items, Literal item.1 item.2 ∧ ClosedWithin limit item.1) (hsep : Separated (items.map Prod.fst) inner) :
    LiteralWithin (limit + 1) (left ++ inner ++ Token.closeBracket.text.toList) where
  literal := ⟨_, .list items hl (fun item hi => (h item hi).1) hsep (.self _)⟩
  closed := by
    refine (ClosedWithin.separated hsep fun text ht => ?_).brackets (Or.inl rfl) (Or.inl rfl) hl (.self _)
    obtain ⟨item, hi, rfl⟩ := List.mem_map.mp ht
    exact (h item hi).2

theorem literalWithin_object {left inner : List Char} {members : List Member} (hl : Punctuation .openBrace left)
    (h : ∀ m ∈ members, m.Within limit) (hsep : Separated (members.map Member.text) inner) :
    LiteralWithin (limit + 1) (left ++ inner ++ Token.closeBrace.text.toList) where
  literal := ⟨_, .object members hl (fun m hm => (h m hm).words) (fun m hm => (h m hm).value) hsep (.self _)⟩
  closed := by
    refine (ClosedWithin.separated hsep fun text ht => ?_).brackets (Or.inr rfl) (Or.inr rfl) hl (.self _)
    obtain ⟨m, hm, rfl⟩ := List.mem_map.mp ht
    exact (h m hm).closed_text

namespace Rule

/-! ### Items between brackets -/

/-- Items that were read with a comma behind each of them, and one more, are separated. -/
theorem separated_of_leading {item : Rule α} {written : γ → List Char} {Writes : γ → Prop} (hm : item.Moves) {room : Nat}
    (hitem : ∀ {d e a}, d.depth ≤ d.depthLimit → d.room = room → item d = .ok (a, e) → ∃ g, Writes g ∧ d.Reads (written g) e)
    (hle : c.depth ≤ c.depthLimit) (hroom : c.room = room) {as : List α} (h : Leading item c as d) {text : List Char}
    (hr : c.Reads text d) {last : γ} (hlast : Writes last) :
    ∃ first others, (∀ g ∈ first :: others, Writes g) ∧ Separated ((first :: others).map written) (text ++ written last) := by
  induction h generalizing text with
  | none =>
    obtain rfl := hr.text_unique (.refl _)
    exact ⟨last, [], fun g hg => List.mem_singleton.mp hg ▸ hlast, .one _⟩
  | @more c e f d a as hread hcomma hmore ih =>
    obtain ⟨g, hg, h1⟩ := hitem hle hroom hread
    obtain ⟨comma, hs, h2, -⟩ := (Lexeme.token_eq_ok hcomma).reads
    obtain ⟨rest, h3⟩ := hm.leading hmore
    have h12 := h1.trans h2
    obtain ⟨first, others, hall, hsep⟩ := ih (h12.depth_le hle) (h12.room.trans hroom) h3
    refine ⟨g, first :: others, fun x hx => ?_, ?_⟩
    · rcases List.mem_cons.mp hx with rfl | hx
      · exact hg
      · exact hall x hx
    · rw [hr.text_unique (h12.trans h3), List.append_assoc]
      exact .more hs hsep

/-- What is read as brackets with items could be closed. -/
theorem viable_bracketed (written : γ → List Char) (Writes : Nat → γ → Prop) {Whole : List Char → Prop} (hs : s.Committed)
    {opening closing : Token} {item : Rule α} {build : List α → Value} (hm : item.Moves) (hc : c.Valid)
    (hwhole : ∃ text, Whole text)
    (hbuild : ∀ {room left inner} {gs : List γ}, room + 1 = c.room → Punctuation opening left → (∀ g ∈ gs, Writes room g) →
      Separated (gs.map written) inner → Whole (left ++ inner ++ closing.text.toList))
    (hitem : ∀ {d e a}, d.depth ≤ d.depthLimit → d.room + 1 = c.room → item d = .ok (a, e) →
      ∃ g, Writes d.room g ∧ d.Reads (written g) e)
    (hviable : ∀ {d : Cursor}, d.depth ≤ d.depthLimit → d.room + 1 = c.room → d.Valid →
      item.Viable d fun text => ∃ g, Writes d.room g ∧ written g = text) :
    (bracketed s.retry opening closing item build).Viable c Whole := by
  refine viable_token_bind hwhole fun {c1 left} _ hl h1 _ => Viable.nested fun hlt => ?_
  have hroom := (Cursor.room_withDepth hlt).trans h1.room
  have hvalid := (h1.valid hc).withDepth (c1.depth + 1)
  have hle : (c1.withDepth (c1.depth + 1)).depth ≤ (c1.withDepth (c1.depth + 1)).depthLimit := hlt
  generalize c1.withDepth (c1.depth + 1) = d at hroom hvalid hle
  have hrow {as e text g} (hleading : Leading item d as e) (hr : d.Reads text e) (hg : Writes d.room g) :
      ∃ gs : List γ, (∀ g ∈ gs, Writes d.room g) ∧ Separated (gs.map written) (text ++ written g) := by
    obtain ⟨first, others, hall, hsep⟩ := separated_of_leading hm
      (fun hle' hroom' hread => hroom' ▸ hitem hle' (hroom'.symm ▸ hroom) hread) hle rfl hleading hr hg
    exact ⟨first :: others, hall, hsep⟩
  refine viable_row (fun inner => ∃ gs : List γ, (∀ g ∈ gs, Writes d.room g) ∧ Separated (gs.map written) inner) hs hm hvalid
    ?_ ?_ ?_ ?_
  · rintro inner ⟨gs, hgs, hsep⟩
    rw [← List.append_assoc]
    exact hbuild hroom hl hgs hsep
  · exact ⟨[], (fun _ h => nomatch h), .nil⟩
  · intro as e text hleading hr
    refine (hviable (hr.depth_le hle) (hr.room.symm ▸ hroom) (hr.valid hvalid)).mono ?_
    rintro _ ⟨g, hg, rfl⟩
    exact hrow hleading hr (hr.room ▸ hg)
  · intro as e text a f read hleading hr hlast h2
    obtain ⟨g, hg, h2'⟩ := hitem (hr.depth_le hle) (hr.room.symm ▸ hroom) hlast
    rw [h2.text_unique h2']
    exact hrow hleading hr (hr.room ▸ hg)

/-! ### Literals -/

/-- Where the values of members break off behind the starts of literals, the members do so behind the starts of members. -/
theorem viable_member {value : Rule Value} (hm : value.Moves)
    (h : ∀ {d : Cursor}, d.depth ≤ d.depthLimit → d.room = c.room → d.Valid → value.Viable d (LiteralWithin d.room))
    (hle : c.depth ≤ c.depthLimit) (hc : c.Valid) :
    (member value).Viable c fun text => ∃ m : Member, m.Within c.room ∧ m.text = text := by
  have hcolon : Punctuation .colon [':'] := .self _
  have hnull := literalWithin_null c.room
  obtain ⟨v, hliteral⟩ := hnull.literal
  refine Viable.bind (viable_quoted.extend ?_) moves_quoted fun {key c1 keyText} hkey h1 => ?_
  · rintro keyText ⟨key, hk⟩
    exact ⟨_, ⟨keyText, key, [':'], _, v⟩, ⟨⟨hk, hcolon⟩, hliteral, hnull.closed⟩, List.append_assoc ..⟩
  · obtain ⟨raw, hraw, hp⟩ := Lexeme.quoted_eq_ok (lexeme_eq_ok.mp hkey)
    obtain ⟨keyText', hks, h1', -⟩ := hp.reads
    obtain rfl := h1.text_unique h1'
    have hk : Key keyText key := ⟨raw, hraw, hks⟩
    refine viable_token_bind ?_ fun {c2 colon} _ hcs h2 _ => ?_
    · exact ⟨_, ⟨keyText, key, [':'], _, v⟩, ⟨⟨hk, hcolon⟩, hliteral, hnull.closed⟩, List.append_assoc ..⟩
    · have h12 := h1.trans h2
      refine Viable.bind ((h (h12.depth_le hle) h12.room (h12.valid hc)).mono ?_) hm fun _ _ => viable_pure _
      rintro valueText ⟨⟨v, hv⟩, hclosed⟩
      exact ⟨⟨keyText, key, colon, valueText, v⟩, ⟨⟨hk, hcs⟩, hv, h12.room ▸ hclosed⟩, List.append_assoc ..⟩

theorem within_of_literalWithin {levels : Nat} (hle : c.depth ≤ c.depthLimit) (hlevels : c.room < levels) {v : Value}
    (h : literalWithin s levels c = .ok (v, d)) : ∃ text, Literal text v ∧ ClosedWithin c.room text ∧ c.Reads text d := by
  unfold Cursor.room at hlevels ⊢
  obtain ⟨text, n, hliteral, hn, hdepth, hr, -⟩ := literalWithin_eq_ok_within hle (by omega) h
  exact ⟨text, hliteral, ⟨n, hn, by omega⟩, hr⟩

theorem within_of_member {levels : Nat} (hle : c.depth ≤ c.depthLimit) (hlevels : c.room < levels) {p : String × Value}
    (h : member (literalWithin s levels) c = .ok (p, d)) : ∃ m : Member, m.Within c.room ∧ c.Reads m.text d := by
  obtain ⟨key, c1, hkey, h⟩ := bind_eq_ok.mp h
  obtain ⟨⟨⟩, c2, hcolon, h⟩ := bind_eq_ok.mp h
  obtain ⟨v, c3, hv, h⟩ := bind_eq_ok.mp h
  obtain ⟨-, rfl⟩ := Prod.mk.inj (Except.ok.inj h)
  obtain ⟨raw, hraw, hp⟩ := Lexeme.quoted_eq_ok (lexeme_eq_ok.mp hkey)
  obtain ⟨keyText, hks, h1, -⟩ := hp.reads
  obtain ⟨colon, hcs, h2, -⟩ := reads_token hcolon
  have h12 := h1.trans h2
  obtain ⟨valueText, hliteral, hclosed, h3⟩ := within_of_literalWithin (h12.depth_le hle) (h12.room.symm ▸ hlevels) hv
  exact ⟨⟨keyText, key, colon, valueText, v⟩, ⟨⟨⟨raw, hraw, hks⟩, hcs⟩, hliteral, h12.room ▸ hclosed⟩, h12.trans h3⟩

theorem viable_literalWithin (hs : s.Committed) {levels : Nat} (hle : c.depth ≤ c.depthLimit) (hlevels : c.room < levels)
    (hc : c.Valid) : (literalWithin s levels).Viable c (LiteralWithin c.room) := by
  induction levels generalizing c with
  | zero => exact absurd hlevels (Nat.not_lt_zero _)
  | succ levels ih =>
    have hnull : ∃ text, LiteralWithin c.room text := ⟨_, literalWithin_null _⟩
    have hm := moves_literalWithin s levels
    refine viable_choice (fun rule hmem => ?_) hnull
    obtain ⟨f, -, rfl⟩ := List.mem_map.mp hmem
    cases f with
    | number => exact (viable_number hnull).bind moves_number fun _ _ => viable_pure _
    | boolean b => exact viable_token_bind hnull fun _ _ _ _ => viable_pure _
    | null => exact viable_token_bind hnull fun _ _ _ _ => viable_pure _
    | list =>
      refine viable_bracketed Prod.fst (fun room (item : List Char × Value) => Literal item.1 item.2 ∧ ClosedWithin room item.1)
        hs hm hc hnull ?_ ?_ ?_
      · intro room left inner items hroom hl hitems hsep
        exact hroom ▸ literalWithin_list hl hitems hsep
      · intro d e v hle hroom hv
        obtain ⟨text, hliteral, hclosed, hr⟩ := within_of_literalWithin hle (by omega) hv
        exact ⟨(text, v), ⟨hliteral, hclosed⟩, hr⟩
      · intro d hle hroom hd
        exact (ih hle (by omega) hd).mono fun text ⟨⟨v, hv⟩, hclosed⟩ => ⟨(text, v), ⟨hv, hclosed⟩, rfl⟩
    | object =>
      refine viable_bracketed Member.text (fun room m => m.Within room) hs hm.member hc hnull ?_ ?_ ?_
      · intro room left inner members hroom hl hmembers hsep
        exact hroom ▸ literalWithin_object hl hmembers hsep
      · intro d e p hle hroom hp
        exact within_of_member hle (by omega) hp
      · intro d hle hroom hd
        exact viable_member hm (fun hle' hroom' hd' => ih hle' (by omega) hd') hle hd

/-- What is read of a literal is the start of one within the limit. -/
theorem viable_literal (hs : s.Committed) (hle : c.depth ≤ c.depthLimit) (hc : c.Valid) :
    (literal s).Viable c (LiteralWithin c.room) :=
  fun err herr => viable_literalWithin hs hle (Nat.lt_succ_self _) hc err herr

end Rule

end RequestDoc

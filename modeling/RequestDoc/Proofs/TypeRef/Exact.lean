import RequestDoc.Parse
import RequestDoc.Proofs.Rule.Dispatch
import RequestDoc.Proofs.Rule.Whole

/-!
Parsing type references is exact. A text is parsed to a type exactly if it is made of the words of the type,
blanks allowed before, between and behind them, and the type does not nest too deeply; a text of a type that
does is refused for this reason. The mark of a required type is read greedily, so no mark may follow a
reference where it is read inside something else.
-/

namespace RequestDoc

open Grammar

variable {s : Strategy} {c d : Cursor}

/-! ### Spaced words -/

theorem spacedAll_cons_iff {word text : List Char} {words : List (List Char)} :
    SpacedAll (word :: words) text ↔ ∃ first rest, Spaced word first ∧ SpacedAll words rest ∧ text = first ++ rest := by
  constructor
  · rintro ⟨⟩
    next first rest hfirst hrest => exact ⟨first, rest, hfirst, hrest, rfl⟩
  · rintro ⟨first, rest, hfirst, hrest, rfl⟩
    exact .cons hfirst hrest

theorem spacedAll_append_iff {words words' : List (List Char)} {text : List Char} :
    SpacedAll (words ++ words') text ↔
      ∃ first rest, SpacedAll words first ∧ SpacedAll words' rest ∧ text = first ++ rest := by
  constructor
  · intro h
    induction words generalizing text with
    | nil => exact ⟨[], text, .nil, h, rfl⟩
    | cons word words ih =>
      obtain ⟨first, more, hfirst, hmore, rfl⟩ := spacedAll_cons_iff.mp h
      obtain ⟨second, rest, hsecond, hrest, rfl⟩ := ih hmore
      exact ⟨first ++ second, rest, .cons hfirst hsecond, hrest, (List.append_assoc ..).symm⟩
  · rintro ⟨first, rest, hfirst, hrest, rfl⟩
    exact hfirst.append hrest

namespace TypeRef

/-- The form in which a reference is written. -/
def form : TypeRef → TypeForm
  | named _ _ => .named
  | list _ _ => .list

theorem spacedAll_named_iff {name : TypeName} {required : Bool} {text : List Char} :
    SpacedAll (named name required).words text ↔
      ∃ first mark, Spaced name.text.toList first ∧ SpacedAll (markWords required) mark ∧ text = first ++ mark :=
  spacedAll_cons_iff

theorem spacedAll_list_iff {item : TypeRef} {required : Bool} {text : List Char} :
    SpacedAll (list item required).words text ↔
      ∃ left inner right mark, Punctuation .openBracket left ∧ SpacedAll item.words inner ∧
        Punctuation .closeBracket right ∧ SpacedAll (markWords required) mark ∧
        text = left ++ (inner ++ (right ++ mark)) := by
  constructor
  · intro h
    obtain ⟨left, behind, hl, hbehind, rfl⟩ := spacedAll_cons_iff.mp h
    obtain ⟨inner, last, hi, hlast, rfl⟩ := spacedAll_append_iff.mp hbehind
    obtain ⟨right, mark, hr, hm, rfl⟩ := spacedAll_cons_iff.mp hlast
    exact ⟨left, inner, right, mark, hl, hi, hr, hm, rfl⟩
  · rintro ⟨left, inner, right, mark, hl, hi, hr, hm, rfl⟩
    exact .cons hl (hi.append (.cons hr hm))

theorem startsWith_form {t : TypeRef} {text : List Char} (h : Reference text t) :
    ∃ x, t.form.StartsWith x ∧ ∀ rest, (text ++ rest).head? = some x := by
  obtain ⟨hname, hw⟩ := h
  cases t with
  | named name required =>
    obtain ⟨first, mark, ⟨w, -, rfl⟩, -, rfl⟩ := spacedAll_named_iff.mp hw
    rw [baseName] at hname
    cases hchars : name.text.toList with
    | nil =>
      rw [hchars] at hname
      cases hname
    | cons x xs =>
      rw [hchars] at hname
      cases hname with
      | mk hx _ => exact ⟨x, hx, fun rest => rfl⟩
  | list item required =>
    obtain ⟨left, inner, right, mark, hl, -, -, -, rfl⟩ := spacedAll_list_iff.mp hw
    refine ⟨'[', rfl, fun rest => ?_⟩
    rw [List.append_assoc]
    exact head?_punctuation hl _

theorem flush_reference {t : TypeRef} {text : List Char} (h : Reference text t) (rest : List Char) :
    Flush (text ++ rest) := by
  obtain ⟨x, hstart, hx⟩ := startsWith_form h
  intro y hy
  obtain rfl := Option.some.inj ((hx rest).symm.trans hy)
  exact t.form.isBlank_of_startsWith hstart

end TypeRef

namespace Rule

open TypeRef

/-! ### The mark of a required type -/

theorem apart_mark {required : Bool} {mark rest : List Char} (hm : SpacedAll (markWords required) mark)
    (hr : Apart rest) : Apart (mark ++ rest) := by
  cases required with
  | false =>
    cases hm
    exact hr
  | true =>
    obtain ⟨bang, more, hbang, -, rfl⟩ := spacedAll_cons_iff.mp hm
    have hpunctuation : Punctuation .bang bang := hbang
    rw [List.append_assoc]
    exact apart_punctuation rfl hpunctuation _

theorem tokenIf_of_mark {required : Bool} {mark : List Char} (hm : SpacedAll (markWords required) mark)
    (h : c.Reads mark d) (hd : Flush d.rest) (hbang : d.rest.head? ≠ some '!') :
    tokenIf .bang c = .ok (required, d) := by
  cases required with
  | false =>
    cases hm
    obtain rfl := h.unique (.refl c)
    exact tokenIf_eq_ok.mpr (Or.inr ⟨rfl, rfl, _, Lexeme.token_refuses hbang⟩)
  | true =>
    obtain ⟨bang, more, hb, hmore, rfl⟩ := spacedAll_cons_iff.mp hm
    have hpunctuation : Punctuation .bang bang := hb
    cases hmore
    rw [List.append_nil] at h
    have hread := Lexeme.mark_of_reads rfl hpunctuation h hd
    exact tokenIf_eq_ok.mpr (Or.inl ⟨rfl, hread⟩)

theorem mark_of_tokenIf {required : Bool} (h : tokenIf .bang c = .ok (required, d)) (hc : Flush c.rest) :
    ∃ mark, SpacedAll (markWords required) mark ∧ c.Reads mark d ∧ Flush d.rest := by
  rcases tokenIf_eq_ok.mp h with ⟨rfl, ht⟩ | ⟨rfl, rfl, -⟩
  · obtain ⟨bang, hs, hr, hflush⟩ := (Lexeme.token_eq_ok ht).reads
    have hmark := SpacedAll.cons hs .nil
    rw [List.append_nil] at hmark
    exact ⟨bang, hmark, hr, hflush⟩
  · exact ⟨[], .nil, .refl _, hc⟩

/-! ### What is read -/

/-- What is read as a reference writes it, and its lists are within the limit. -/
theorem reference_of_typeRefWithin {levels : Nat} {t : TypeRef} (h : typeRefWithin s levels c = .ok (t, d)) :
    ∃ text, Reference text t ∧ c.Reads text d ∧ Flush d.rest ∧
      (c.depth ≤ c.depthLimit → c.depth + t.depth ≤ c.depthLimit) := by
  induction levels generalizing c d t with
  | zero => cases h
  | succ levels ih =>
    obtain ⟨rule, hm, h⟩ := choice_eq_ok h
    obtain ⟨f, -, rfl⟩ := List.mem_map.mp hm
    cases f with
    | named =>
      obtain ⟨name, c1, hname, h⟩ := bind_eq_ok.mp h
      obtain ⟨required, c2, hmark, h⟩ := bind_eq_ok.mp h
      obtain ⟨rfl, rfl⟩ := Prod.mk.inj (Except.ok.inj h)
      obtain ⟨first, ⟨hn, hfirst⟩, h1, hflush⟩ := reads_name hname
      obtain ⟨mark, hm, h2, hflush⟩ := mark_of_tokenIf hmark hflush
      exact ⟨first ++ mark, ⟨hn, spacedAll_named_iff.mpr ⟨first, mark, hfirst, hm, rfl⟩⟩, h1.trans h2, hflush, id⟩
    | list =>
      obtain ⟨⟨⟩, c1, hopen, h⟩ := bind_eq_ok.mp h
      obtain ⟨hlt, e, hbody, rfl⟩ := nested_eq_ok.mp h
      obtain ⟨item, c2, hitem, hbody⟩ := bind_eq_ok.mp hbody
      obtain ⟨⟨⟩, c3, hclose, hbody⟩ := bind_eq_ok.mp hbody
      obtain ⟨required, c4, hmark, hbody⟩ := bind_eq_ok.mp hbody
      obtain ⟨rfl, rfl⟩ := Prod.mk.inj (Except.ok.inj hbody)
      obtain ⟨left, hl, h1, -⟩ := reads_token hopen
      obtain ⟨inner, ⟨hn, hi⟩, h2, -, hle⟩ := ih hitem
      obtain ⟨right, hr, h3, hflush⟩ := reads_token hclose
      obtain ⟨mark, hm, h4, hflush⟩ := mark_of_tokenIf hmark hflush
      have hbody := (h2.trans (h3.trans h4)).of_withDepth
      refine ⟨_, ⟨hn, spacedAll_list_iff.mpr ⟨left, inner, right, mark, hl, hi, hr, hm, rfl⟩⟩, h1.trans hbody, hflush, ?_⟩
      intro _
      have hle : c1.depth + 1 + item.depth ≤ c1.depthLimit := hle hlt
      rw [h1.depth, h1.depthLimit] at hle
      rw [TypeRef.depth]
      omega

theorem typeRefWithin_of_reading (hs : s.Thorough) {t : TypeRef} {text : List Char} (h : Reference text t)
    (hr : c.Reads text d) {levels : Nat} {outcome : Except ParseError (TypeRef × Cursor)}
    (hok : typeForm (typeRefWithin s levels) t.form c = outcome) (hfin : Final s.retry c outcome) :
    typeRefWithin s (levels + 1) c = outcome := by
  obtain ⟨x, hstart, hx⟩ := startsWith_form h
  exact typeRefWithin_of_form hs (hr.rest ▸ hx d.rest) hstart hok hfin

/-- A text that writes a reference within the limit is read as that reference. -/
theorem typeRefWithin_of_reference (hs : s.Thorough) {t : TypeRef} {text : List Char} {levels : Nat}
    (h : Reference text t) (hr : c.Reads text d) (hd : Apart d.rest) (hbang : d.rest.head? ≠ some '!')
    (hdepth : c.depth + t.depth ≤ c.depthLimit) (hlevels : c.depthLimit ≤ levels + c.depth) :
    typeRefWithin s (levels + 1) c = .ok (t, d) := by
  induction t generalizing c d text levels with
  | named name required =>
    refine typeRefWithin_of_reading hs h hr ?_ final_ok
    obtain ⟨hname, hw⟩ := h
    obtain ⟨first, mark, hfirst, hm, rfl⟩ := spacedAll_named_iff.mp hw
    obtain ⟨c1, h1, h2⟩ := hr.split
    have hapart : Apart c1.rest := h2.rest ▸ apart_mark hm hd
    have hread := Lexeme.name_of_reads ⟨hname, hfirst⟩ h1 hapart
    have hmark := tokenIf_of_mark hm h2 hd.flush hbang
    exact bind_eq_ok.mpr ⟨_, c1, lexeme_eq_ok.mpr hread, bind_eq_ok.mpr ⟨required, d, hmark, rfl⟩⟩
  | list item required ih =>
    rw [TypeRef.depth] at hdepth
    obtain ⟨k, rfl⟩ : ∃ k, levels = k + 1 := ⟨levels - 1, by omega⟩
    refine typeRefWithin_of_reading hs h hr ?_ final_ok
    obtain ⟨hname, hw⟩ := h
    obtain ⟨left, inner, right, mark, hl, hi, hright, hm, rfl⟩ := spacedAll_list_iff.mp hw
    have hitem : Reference inner item := ⟨hname, hi⟩
    obtain ⟨c1, h1, hr⟩ := hr.split
    obtain ⟨c2, h2, hr⟩ := hr.split
    obtain ⟨c3, h3, h4⟩ := hr.split
    have hdepth1 := h1.depth
    have hlimit1 := h1.depthLimit
    have hflush : Flush c1.rest := h2.rest ▸ flush_reference hitem c2.rest
    have hapart : Apart c2.rest := h3.rest ▸ apart_punctuation rfl hright c3.rest
    have hnomark : c2.rest.head? ≠ some '!' := by
      rw [h3.rest, head?_punctuation hright]
      decide
    have hopen := token_of_mark rfl hl h1 hflush
    have hinner : typeRefWithin s (k + 1) (c1.withDepth (c1.depth + 1)) = .ok (item, c2.withDepth (c1.depth + 1)) := by
      refine ih hitem (h2.withDepth _) hapart hnomark ?_ ?_
      · show c1.depth + 1 + item.depth ≤ c1.depthLimit
        omega
      · show c1.depthLimit ≤ k + (c1.depth + 1)
        omega
    have hapart3 : Apart c3.rest := h4.rest ▸ apart_mark hm hd
    have hclose := token_of_mark rfl hright (h3.withDepth (c1.depth + 1)) hapart3.flush
    have hmark := tokenIf_of_mark hm (h4.withDepth (c1.depth + 1)) hd.flush hbang
    refine bind_eq_ok.mpr ⟨(), c1, hopen, nested_eq_ok.mpr ⟨by omega, d.withDepth (c1.depth + 1), ?_, ?_⟩⟩
    · exact bind_eq_ok.mpr ⟨item, _, hinner, bind_eq_ok.mpr ⟨(), _, hclose,
        bind_eq_ok.mpr ⟨required, _, hmark, rfl⟩⟩⟩
    · rw [← h2.depth, ← h3.depth, ← h4.depth]
      rfl

/-- Within the limit a text that writes a reference is read as that reference. -/
theorem typeRef_of_reference (hs : s.Thorough) {t : TypeRef} {text : List Char} (h : Reference text t)
    (hdepth : c.depth + t.depth ≤ c.depthLimit) (hr : c.Reads text d) (hd : Apart d.rest)
    (hbang : d.rest.head? ≠ some '!') : typeRef s c = .ok (t, d) :=
  typeRefWithin_of_reference hs h hr hd hbang hdepth (by omega)

/-- A text that writes a reference with more lists than the limit allows is refused for this reason. -/
theorem typeRefWithin_tooDeep (hs : s.Thorough) {t : TypeRef} {text : List Char} {levels : Nat}
    (h : Reference text t) (hr : c.Reads text d) (hdepth : c.depth ≤ c.depthLimit)
    (hdeep : c.depthLimit < c.depth + t.depth) (hlevels : c.depthLimit ≤ levels + c.depth) :
    ∃ p, typeRefWithin s (levels + 1) c = .error (.tooDeep c.depthLimit p) := by
  induction t generalizing c d text levels with
  | named name required =>
    rw [TypeRef.depth] at hdeep
    omega
  | list item required ih =>
    rw [TypeRef.depth] at hdeep
    suffices ∃ p, typeForm (typeRefWithin s levels) .list c = .error (.tooDeep c.depthLimit p) by
      obtain ⟨p, hp⟩ := this
      exact ⟨p, typeRefWithin_of_reading hs h hr hp (final_error hs.stops)⟩
    obtain ⟨hname, hw⟩ := h
    obtain ⟨left, inner, right, mark, hl, hi, -, -, rfl⟩ := spacedAll_list_iff.mp hw
    have hitem : Reference inner item := ⟨hname, hi⟩
    obtain ⟨c1, h1, hr⟩ := hr.split
    obtain ⟨c2, h2, -⟩ := hr.split
    have hdepth1 := h1.depth
    have hlimit1 := h1.depthLimit
    have hflush : Flush c1.rest := h2.rest ▸ flush_reference hitem c2.rest
    have hopen := token_of_mark rfl hl h1 hflush
    rw [← hlimit1]
    by_cases hlt : c1.depth < c1.depthLimit
    · obtain ⟨k, rfl⟩ : ∃ k, levels = k + 1 := ⟨levels - 1, by omega⟩
      obtain ⟨p, hp⟩ : ∃ p, typeRefWithin s (k + 1) (c1.withDepth (c1.depth + 1)) = .error (.tooDeep c1.depthLimit p) := by
        refine ih hitem (h2.withDepth (c1.depth + 1)) hlt ?_ ?_
        · show c1.depthLimit < c1.depth + 1 + item.depth
          omega
        · show c1.depthLimit ≤ k + (c1.depth + 1)
          omega
      refine ⟨p, bind_eq_error.mpr (Or.inr ⟨(), c1, hopen, ?_⟩)⟩
      exact nested_eq_error.mpr (Or.inr ⟨hlt, bind_eq_error.mpr (Or.inl hp)⟩)
    · refine ⟨c1.position, bind_eq_error.mpr (Or.inr ⟨(), c1, hopen, ?_⟩)⟩
      exact nested_eq_error.mpr (Or.inl ⟨Nat.not_lt.mp hlt, rfl⟩)

end Rule

/-! ### Whole texts -/

/-- The text is made of the words, blanks allowed before, between and behind them. -/
def Grammar.WrittenWith (words : List (List Char)) (text : String) : Prop :=
  ∃ w s, Blanks w ∧ text.toList = w ++ s ∧ SpacedAll words s

namespace TypeRef

open Rule

theorem parse_eq_ok_iff_reference {limits : Limits} {text : String} (hsize : text.utf8ByteSize ≤ limits.textSize)
    (t : TypeRef) :
    TypeRef.parse limits text = .ok t ↔
      ∃ w s, Blanks w ∧ text.toList = w ++ s ∧ Reference s t ∧ t.depth ≤ limits.depth := by
  refine parse_eq_ok_iff_writes hsize (fun hs => ?_) (fun hr => ?_) fun hs hr hend => ?_
  · have hflush := flush_reference hs.1 []
    rwa [List.append_nil] at hflush
  · obtain ⟨s, hs, hreads, hflush, hdepth⟩ := reference_of_typeRefWithin hr
    exact ⟨s, ⟨hs, Nat.zero_add t.depth ▸ hdepth (Nat.zero_le _)⟩, hreads, hflush⟩
  · refine typeRefWithin_of_reference Strategy.thorough_standard hs.1 hr (hend ▸ apart_nil) ?_ ?_ (Nat.le_refl _)
    · rw [hend]
      exact fun h => nomatch h
    · rw [Cursor.depth_entry, Nat.zero_add]
      exact hs.2

/-- A text is parsed as a type exactly if it is made of the words of the type and the type does not nest too deeply.
If the type does, the limit is told. -/
theorem parse_exact {limits : Limits} {text : String} (hsize : text.utf8ByteSize ≤ limits.textSize) (t : TypeRef) :
    t.words.flatten = t.text.toList ∧
      (TypeRef.parse limits text = .ok t ↔
        IsName t.baseName.text.toList ∧ t.depth ≤ limits.depth ∧ WrittenWith t.words text) ∧
      (IsName t.baseName.text.toList → limits.depth < t.depth → WrittenWith t.words text →
        ∃ p, TypeRef.parse limits text = .error (.tooDeep limits.depth p)) := by
  refine ⟨?_, ?_, ?_⟩
  · rw [TypeRef.text, String.toList_ofList, chars_eq]
  · rw [parse_eq_ok_iff_reference hsize]
    constructor
    · rintro ⟨w, s, hw, htext, ⟨hname, hs⟩, hdepth⟩
      exact ⟨hname, hdepth, w, s, hw, htext, hs⟩
    · rintro ⟨hname, hdepth, w, s, hw, htext, hs⟩
      exact ⟨w, s, hw, htext, ⟨hname, hs⟩, hdepth⟩
  · rintro hname hdeep ⟨w, s, hw, htext, hs⟩
    have href : Reference s t := ⟨hname, hs⟩
    have hflush : Flush s := List.append_nil s ▸ flush_reference href []
    have hrest : (Cursor.entry limits text).rest = s ++ [] := by
      rw [(Cursor.reads_entry_of_eq limits hw htext hflush).2, List.append_nil]
    have hbeyond : (Cursor.entry limits text).depthLimit < (Cursor.entry limits text).depth + t.depth := by
      rw [Cursor.depth_entry, Nat.zero_add]
      exact hdeep
    obtain ⟨p, hp⟩ := typeRefWithin_tooDeep Strategy.thorough_standard href (.of_rest hrest) (Nat.zero_le _) hbeyond
      (Nat.le_refl _)
    exact ⟨p, parse_of_error hsize hp⟩

/-- A list of required names is parsed if one list is allowed, and refused if none is. -/
theorem parse_required_list :
    TypeRef.parse ⟨64, 1⟩ " [ Int! ]" = .ok (.list (.named ⟨"Int"⟩ true) false) ∧
      ∃ p, TypeRef.parse ⟨64, 0⟩ " [ Int! ]" = .error (.tooDeep 0 p) := by
  have hname : IsName "Int".toList := Lexeme.isName_of_all rfl rfl
  have hwritten : WrittenWith (list (.named ⟨"Int"⟩ true) false).words " [ Int! ]" := by
    refine ⟨[' '], ['[', ' ', 'I', 'n', 't', '!', ' ', ']'], by decide, rfl, ?_⟩
    exact .cons ⟨[' '], by decide, rfl⟩ (.cons (.self _) (.cons ⟨[' '], by decide, rfl⟩ (.cons (.self _) .nil)))
  constructor
  · exact (parse_exact (by decide) _).2.1.mpr ⟨hname, by decide, hwritten⟩
  · exact (parse_exact (by decide) (list (.named ⟨"Int"⟩ true) false)).2.2 hname (by decide) hwritten

end TypeRef

end RequestDoc

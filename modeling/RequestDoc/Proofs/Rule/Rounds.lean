import RequestDoc.Proofs.Rule.First

/-!
How often a repetition runs its rule. Every round but the last one reads something, so if a round reads at least two
bytes, there are no more rounds than bytes left, one round aside where nothing is left. A comma with an item behind it is
that long, and so is a definition.
-/

namespace RequestDoc.Rule

variable {α β : Type} {retry : Retry} {s : Strategy} {c d : Cursor} {m n : Nat}

/-- How often a repetition runs its rule, the time that ends it included. -/
def rounds (rule : Rule α) (c : Cursor) : Nat :=
  match rule c with
  | .ok (_, next) => if next.left < c.left then rounds rule next + 1 else 1
  | .error _ => 1
termination_by c.left

/-- Every round but the last one gives an item. -/
theorem rounds_eq_length_collect (retry : Retry) (rule : Rule α) (c : Cursor) :
    rounds rule c = (collect retry rule c).1.length + 1 := by
  have hfrom : ∀ items, (collectFrom retry rule items c).1.length + 1 = items.length + rounds rule c := by
    intro items
    fun_induction collectFrom retry rule items c with
    | case1 items c a d hr hlt ih =>
      have hround : rounds rule c = rounds rule d + 1 := by
        rw [rounds, hr]
        exact if_pos hlt
      rw [ih, hround, List.length_cons]
      omega
    | case2 items c a d hr hlt =>
      rw [rounds, hr]
      simp only [if_neg hlt, List.length_reverse]
    | case3 items c err hr =>
      rw [rounds, hr]
      simp only [List.length_reverse]
  rw [collect, hfrom [], List.length_nil, Nat.zero_add]

/-- The rule reads at least so many bytes. -/
structure Spends (n : Nat) (rule : Rule α) : Prop where
  reads : ∀ {c d : Cursor} {a : α}, rule c = .ok (a, d) → ∃ text, c.Reads text d ∧ n ≤ byteSize text

theorem rounds_le {rule : Rule α} (h : Spends 2 rule) (hc : c.Valid) : rounds rule c ≤ max 1 c.left := by
  have hhalf : rounds rule c ≤ c.left / 2 + 1 := by
    fun_induction rounds rule c with
    | case1 c a d hr hlt ih =>
      obtain ⟨text, hreads, htext⟩ := h.reads hr
      have hd := hreads.valid hc
      have hle := ih hd
      have hleft : c.left = byteSize text + d.left := by rw [hc.left, hd.left, hreads.rest, byteSize_append]
      omega
    | case2 => omega
    | case3 => omega
  omega

/-! ### What rules read -/

theorem Told.spends {firsts : List FirstLexeme} {rule : Rule α} (h : Told firsts rule) (hm : rule.Moves) :
    Spends 1 rule where
  reads hok := by
    obtain ⟨text, hr⟩ := hm.reads hok
    have hoffset := hr.offset
    have hlt := (h.ok hok).1
    exact ⟨text, hr, by omega⟩

theorem spends_token (t : Token) : Spends t.text.toList.length (token t) where
  reads hok := by
    obtain ⟨_, ⟨w, -, rfl⟩, hr, -⟩ := reads_token hok
    have hlength := length_le_byteSize t.text.toList
    exact ⟨_, hr, by rw [byteSize_append]; omega⟩

theorem Spends.mono {rule : Rule α} (h : Spends m rule) (hle : n ≤ m) : Spends n rule where
  reads hok := by
    obtain ⟨text, hr, hm⟩ := h.reads hok
    exact ⟨text, hr, Nat.le_trans hle hm⟩

theorem Spends.bind {rule : Rule α} {next : α → Rule β} (h : Spends m rule) (hn : ∀ a, Spends n (next a)) :
    Spends (m + n) (rule >>= next) where
  reads hok := by
    obtain ⟨a, e, hr, hnext⟩ := bind_eq_ok.mp hok
    obtain ⟨text, hreads, htext⟩ := h.reads hr
    obtain ⟨more, hreads', hmore⟩ := (hn a).reads hnext
    exact ⟨text ++ more, hreads.trans hreads', by rw [byteSize_append]; omega⟩

theorem Spends.andThen {x : Script α} (h : Spends n (x.run retry)) (next : α → Script β) :
    Spends n ((x >>= next).run retry) where
  reads hok := by
    obtain ⟨a, e, hr, hnext⟩ := bind_eq_ok.mp hok
    obtain ⟨text, hreads, htext⟩ := h.reads hr
    obtain ⟨more, hreads'⟩ := (next a).moves_run.reads hnext
    exact ⟨text ++ more, hreads.trans hreads', by rw [byteSize_append]; omega⟩

/-- Taking down the place makes no difference. -/
theorem spends_placed {next : Position → Rule β} (h : ∀ place, Spends n (next place)) :
    Spends n (position >>= next) where
  reads {c _ _} hok := (h c.position).reads hok

theorem spends_choice {rules : List (Rule α)} (h : ∀ rule ∈ rules, Spends n rule) : Spends n (choice retry rules) where
  reads hok := by
    obtain ⟨rule, hm, hr⟩ := choice_eq_ok hok
    exact (h rule hm).reads hr

/-- A comma takes a byte of its own. -/
theorem Spends.behind_comma {item : Rule α} (h : Spends 1 item) : Spends 2 (do token .comma; item) :=
  (spends_token .comma).bind fun _ => h

end RequestDoc.Rule

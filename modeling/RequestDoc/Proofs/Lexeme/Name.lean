import RequestDoc.Proofs.Lexeme.Exact
import RequestDoc.Proofs.Number.Longest

/-!
Names and keywords. In the usual notation the regular expression of names is `[_A-Za-z][_0-9A-Za-z]*`. Reading a name
takes the longest text of this expression that comes next. A keyword is told by its spelling and by the one character
behind that, and this finds it exactly where the name that comes next is the keyword.
-/

namespace RequestDoc

open Numeral RegularExpression

/-! ### The expression -/

namespace Character

/-- The characters from one to another. -/
def range (first last : Char) : List Char :=
  (List.range' first.toNat (last.toNat + 1 - first.toNat)).map Char.ofNat

/-- A range that ends before the surrogates holds the characters between its ends. -/
theorem mem_range {first last x : Char} (hlast : last.toNat < 0xD800) : x ∈ range first last ↔ first ≤ x ∧ x ≤ last := by
  have hle {a b : Char} : a ≤ b ↔ a.toNat ≤ b.toNat := UInt32.le_iff_toNat_le
  simp only [range, List.mem_map, List.mem_range'_1, hle]
  constructor
  · rintro ⟨n, ⟨hfirst, hn⟩, rfl⟩
    have htoNat : (Char.ofNat n).toNat = n := by
      rw [Char.ofNat, dif_pos (Or.inl (by omega))]
      rfl
    omega
  · intro h
    exact ⟨x.toNat, by omega, Char.ofNat_toNat x⟩

theorem startsName_iff_mem {x : Char} : startsName x = true ↔ x ∈ '_' :: (range 'A' 'Z' ++ range 'a' 'z') := by
  rw [List.mem_cons, List.mem_append, mem_range (by decide), mem_range (by decide)]
  show (decide (x = '_') || (decide ('A'.val ≤ x.val ∧ x.val ≤ 'Z'.val) ||
    decide ('a'.val ≤ x.val) && decide (x.val ≤ 'z'.val))) = true ↔ _
  simp only [Bool.or_eq_true, Bool.and_eq_true, decide_eq_true_eq]
  rfl

theorem continuesName_iff_mem {x : Char} :
    continuesName x = true ↔ x ∈ '_' :: (range '0' '9' ++ (range 'A' 'Z' ++ range 'a' 'z')) := by
  have hdigit : x.isDigit = true ↔ '0' ≤ x ∧ x ≤ '9' := Bool.and_eq_true_iff.trans (and_congr decide_eq_true_iff decide_eq_true_iff)
  have hsplit : continuesName x = true ↔ x.isDigit = true ∨ startsName x = true := by
    simp only [continuesName, startsName, Char.isAlphanum, Bool.or_eq_true]
    tauto
  rw [hsplit, hdigit, startsName_iff_mem, List.mem_cons, List.mem_cons, List.mem_append (s := range '0' '9'), mem_range (by decide)]
  tauto

end Character

/-- A name. -/
def nameExpression : RegularExpression Char :=
  oneOf ('_' :: (Character.range 'A' 'Z' ++ Character.range 'a' 'z')) *
    (oneOf ('_' :: (Character.range '0' '9' ++ (Character.range 'A' 'Z' ++ Character.range 'a' 'z')))).star

theorem mem_nameExpression_iff {text : List Char} : text ∈ nameExpression.matches' ↔ IsName text := by
  simp only [nameExpression, mem_mul, mem_oneOf, mem_star_oneOf, ← Character.startsName_iff_mem, ← Character.continuesName_iff_mem]
  constructor
  · rintro ⟨_, ⟨x, hx, rfl⟩, xs, hxs, rfl⟩
    exact .mk hx hxs
  · rintro ⟨hx, hxs⟩
    exact ⟨[_], ⟨_, hx, rfl⟩, _, hxs, rfl⟩

theorem Token.text_injective {t t' : Token} (h : t.text = t'.text) : t = t' := by
  cases t <;> cases t' <;> first | rfl | exact absurd h (by decide)

namespace Lexeme

variable {c d : Cursor}

/-! ### The longest name -/

theorem isName_keyword {t : Token} (hk : t.isKeyword = true) : IsName t.text.toList := by
  cases t with
  | trueWord | falseWord | nullWord | query | mutation => exact isName_of_all (by decide) (by decide)
  | _ => cases hk

/-- A name reaches at most as far into a text as the characters of names do. -/
theorem prefix_takeWhile_of_isName {word text : List Char} (h : IsName word) (hp : word <+: text) :
    word <+: text.takeWhile Character.continuesName := by
  have hall : ∀ x ∈ word, Character.continuesName x = true := by
    obtain ⟨hx, hxs⟩ := h
    exact List.forall_mem_cons.mpr ⟨Character.continuesName_of_startsName hx, hxs⟩
  obtain ⟨more, rfl⟩ := hp
  rw [List.takeWhile_append_of_pos hall]
  exact List.prefix_append _ _

/-- What the scan of a name takes is the longest name. -/
theorem longest_takeWhile {text : List Char} (h : text.head?.any Character.startsName = true) :
    Longest nameExpression.matches' text (text.takeWhile Character.continuesName) where
  mem := mem_nameExpression_iff.mpr (isName_takeWhile h)
  starts := List.takeWhile_prefix _
  longest _ hmem hp := (prefix_takeWhile_of_isName (mem_nameExpression_iff.mp hmem) hp).length_le

theorem startsName_of_prefix {word text : List Char} (h : IsName word) (hp : word <+: text) :
    text.head?.any Character.startsName = true := by
  obtain ⟨more, rfl⟩ := hp
  obtain ⟨hx, -⟩ := h
  simpa using hx

theorem name_eq_ok_iff_longest {s : String} :
    name c = .ok (s, d) ↔ Longest nameExpression.matches' c.rest s.toList ∧ d = (c.past s.toList).skipBlanks := by
  constructor
  · intro h
    obtain ⟨-, hd⟩ := name_eq_ok h
    simp only [name] at h
    split at h
    next hstart =>
      obtain ⟨rfl, -⟩ := Prod.mk.inj (Except.ok.inj h)
      rw [String.toList_ofList] at hd ⊢
      exact ⟨longest_takeWhile hstart, hd⟩
    · cases h
  · rintro ⟨hlongest, rfl⟩
    have hstart := startsName_of_prefix (mem_nameExpression_iff.mp hlongest.mem) hlongest.starts
    have htake := (longest_takeWhile hstart).unique hlongest
    simp only [name, hstart, htake, if_true, String.ofList_toList]

theorem name_eq_error_iff {m : Mismatch} :
    name c = .error m ↔ m = c.mismatch "identifier" ∧ ∀ word ∈ nameExpression.matches', ¬word <+: c.rest := by
  constructor
  · intro h
    refine ⟨name_eq_error h, fun word hmem hp => ?_⟩
    have hstart := startsName_of_prefix (mem_nameExpression_iff.mp hmem) hp
    simp only [name, hstart, if_true] at h
    cases h
  · rintro ⟨rfl, hnone⟩
    have hstart : ¬c.rest.head?.any Character.startsName = true := fun h =>
      hnone _ (longest_takeWhile h).mem (longest_takeWhile h).starts
    simp only [name, hstart, if_false, Bool.false_eq_true]

/-! ### Keywords -/

/-- A keyword is read exactly where it is the name that is read. -/
theorem token_eq_ok_iff_name {t : Token} (hk : t.isKeyword = true) : token t c = .ok ((), d) ↔ name c = .ok (t.text, d) := by
  rw [token_eq_ok_iff, name_eq_ok_iff]
  constructor
  · rintro ⟨hp, hends⟩
    exact ⟨isName_keyword hk, hp, hends hk⟩
  · rintro ⟨-, hp, hends⟩
    exact ⟨hp, fun _ => hends⟩

/-- How keywords and names are read at a cursor. -/
structure KeywordsAreNames (c : Cursor) : Prop where
  keyword : ∀ t : Token, t.isKeyword = true → ∀ d, token t c = .ok ((), d) ↔ name c = .ok (t.text, d)
  name : ∀ s d, name c = .ok (s, d) ↔
    Longest nameExpression.matches' c.rest s.toList ∧ d = (c.past s.toList).skipBlanks
  refused : ∀ m, Lexeme.name c = .error m ↔
    m = c.mismatch "identifier" ∧ ∀ word ∈ nameExpression.matches', ¬word <+: c.rest
  single : ∀ t t' : Token, t.isKeyword = true → t'.isKeyword = true →
    ∀ d d', token t c = .ok ((), d) → token t' c = .ok ((), d') → t = t'
  whole : ∀ t : Token, t.isKeyword = true → ∀ d, token t c = .ok ((), d) →
    ∀ word ∈ nameExpression.matches', word <+: c.rest → word <+: t.text.toList

/-- Keywords agree with names at every cursor, whatever follows it. -/
theorem keywords_are_names (c : Cursor) : KeywordsAreNames c where
  keyword t hk d := token_eq_ok_iff_name hk
  name s d := name_eq_ok_iff_longest
  refused m := name_eq_error_iff
  single t t' hk hk' d d' h h' := by
    have hname := (token_eq_ok_iff_name hk).mp h
    have hname' := (token_eq_ok_iff_name hk').mp h'
    exact Token.text_injective (Prod.mk.inj (Except.ok.inj (hname.symm.trans hname'))).1
  whole t hk d h word hmem hp := by
    obtain ⟨hlongest, -⟩ := name_eq_ok_iff_longest.mp ((token_eq_ok_iff_name hk).mp h)
    exact List.prefix_of_prefix_length_le hp hlongest.starts (hlongest.longest word hmem hp)

end Lexeme

end RequestDoc

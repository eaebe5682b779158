import RequestDoc.Value.Basic

/-!
What stands in a value: the value itself and, in lists and objects, what stands in the items and in the
members' values. Some properties of a value are properties of all that stands in it.
-/

namespace RequestDoc.Value

/-- The second value stands in the first one. -/
inductive Contains : Value → Value → Prop where
  | self (v : Value) : Contains v v
  | item {items : List Value} {v u : Value} : v ∈ items → Contains v u → Contains (.list items) u
  | member {members : Members Value} {key : String} {v u : Value} :
      (key, v) ∈ members.toList → Contains v u → Contains (.object members) u

/-- No object that stands in the value has a key twice. -/
def DistinctKeys (v : Value) : Prop :=
  ∀ members, v.Contains (.object members) → members.Distinct

/-- No missing number stands in the value. -/
def WithoutNaN (v : Value) : Prop :=
  ∀ x, v.Contains (.number x) → x.isNaN = false

/-- The value can be written as a literal: no string and no infinite or missing number stands in it. -/
structure IsLiteral (v : Value) : Prop where
  noString : ∀ s, ¬v.Contains (.string s)
  finite : ∀ x, v.Contains (.number x) → x.isFinite = true

mutual

/-- How many lists and objects lie inside each other. -/
def nesting : Value → Nat
  | list items => nestingItems items + 1
  | object ⟨members⟩ => nestingMembers members + 1
  | _ => 0

/-- How many lists and objects lie inside each other in one of the items. -/
def nestingItems : List Value → Nat
  | [] => 0
  | v :: vs => max v.nesting (nestingItems vs)

/-- How many lists and objects lie inside each other in one of the members. -/
def nestingMembers : List (String × Value) → Nat
  | [] => 0
  | (_, v) :: members => max v.nesting (nestingMembers members)

end

theorem isLiteral_number_iff {x : Binary64} : (number x).IsLiteral ↔ x.isFinite = true := by
  constructor
  · exact fun h => h.finite x (.self _)
  · intro h
    constructor
    · rintro s ⟨⟩
    · rintro _ ⟨⟩
      exact h

theorem isLiteral_boolean (b : Bool) : (boolean b).IsLiteral where
  noString s := by rintro ⟨⟩
  finite x := by rintro ⟨⟩

theorem isLiteral_null : null.IsLiteral where
  noString s := by rintro ⟨⟩
  finite x := by rintro ⟨⟩

theorem isLiteral_list_iff {items : List Value} : (list items).IsLiteral ↔ ∀ v ∈ items, v.IsLiteral := by
  constructor
  · intro h v hv
    exact ⟨fun s hs => h.noString s (.item hv hs), fun x hx => h.finite x (.item hv hx)⟩
  · intro h
    constructor
    · intro s hs
      cases hs with
      | item hv hs => exact (h _ hv).noString s hs
    · intro x hx
      cases hx with
      | item hv hx => exact (h _ hv).finite x hx

theorem isLiteral_object_iff {members : List (String × Value)} :
    (object ⟨members⟩).IsLiteral ↔ ∀ m ∈ members, m.2.IsLiteral := by
  constructor
  · intro h m hm
    exact ⟨fun s hs => h.noString s (.member hm hs), fun x hx => h.finite x (.member hm hx)⟩
  · intro h
    constructor
    · intro s hs
      cases hs with
      | member hm hs => exact (h _ hm).noString s hs
    · intro x hx
      cases hx with
      | member hm hx => exact (h _ hm).finite x hx

theorem DistinctKeys.item {items : List Value} {v : Value} (h : (list items).DistinctKeys) (hv : v ∈ items) :
    v.DistinctKeys :=
  fun members hm => h members (.item hv hm)

theorem DistinctKeys.member {members : List (String × Value)} {m : String × Value}
    (h : (object ⟨members⟩).DistinctKeys) (hm : m ∈ members) : m.2.DistinctKeys :=
  fun inner hi => h inner (.member hm hi)

theorem distinctKeys_list_iff {items : List Value} : (list items).DistinctKeys ↔ ∀ v ∈ items, v.DistinctKeys := by
  constructor
  · exact fun h v hv => h.item hv
  · intro h members hm
    cases hm with
    | item hv hm => exact h _ hv members hm

theorem distinctKeys_object_iff {members : List (String × Value)} :
    (object ⟨members⟩).DistinctKeys ↔ (Members.mk members).Distinct ∧ ∀ m ∈ members, m.2.DistinctKeys := by
  constructor
  · exact fun h => ⟨h _ (.self _), fun m hm => h.member hm⟩
  · rintro ⟨hkeys, h⟩ inner hi
    cases hi with
    | self => exact hkeys
    | member hm hi => exact h _ hm inner hi

theorem withoutNaN_number_iff {x : Binary64} : (number x).WithoutNaN ↔ x.isNaN = false := by
  constructor
  · exact fun h => h x (.self _)
  · rintro h _ ⟨⟩
    exact h

theorem withoutNaN_list_iff {items : List Value} : (list items).WithoutNaN ↔ ∀ v ∈ items, v.WithoutNaN := by
  constructor
  · exact fun h v hv x hx => h x (.item hv hx)
  · intro h x hx
    cases hx with
    | item hv hx => exact h _ hv x hx

theorem withoutNaN_object_iff {members : List (String × Value)} :
    (object ⟨members⟩).WithoutNaN ↔ ∀ m ∈ members, m.2.WithoutNaN := by
  constructor
  · exact fun h m hm x hx => h x (.member hm hx)
  · intro h x hx
    cases hx with
    | member hm hx => exact h _ hm x hx

end RequestDoc.Value

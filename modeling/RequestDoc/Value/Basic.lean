import RequestDoc.Number.Binary64
import RequestDoc.Value.Members

/-!
Values: numbers, strings, booleans, null, lists of values and objects with values under keys.
-/

namespace RequestDoc

/-- A value as it is given to a variable. Numbers are double-precision numbers throughout. -/
inductive Value where
  | number (x : Binary64)
  | string (s : String)
  | boolean (b : Bool)
  | null
  | list (items : List Value)
  | object (members : Members Value)

namespace Value

instance : Inhabited Value := ⟨null⟩

/-- The number that a value is. -/
def number? : Value → Option Binary64
  | number x => some x
  | _ => none

/-- The string that a value is. -/
def string? : Value → Option String
  | string s => some s
  | _ => none

/-- The boolean that a value is. -/
def boolean? : Value → Option Bool
  | boolean b => some b
  | _ => none

/-- The items of the list that a value is. -/
def list? : Value → Option (List Value)
  | list items => some items
  | _ => none

/-- The members of the object that a value is. -/
def object? : Value → Option (Members Value)
  | object members => some members
  | _ => none

/-- The value is null. -/
def isNull : Value → Bool
  | null => true
  | _ => false

/-! ### Equality -/

mutual

/-- Equality of values. Numbers are compared as numbers and lists item by item. Objects are equal if they
have as many members and every key of the first stands in the second over an equal value, in any order. -/
def equal : Value → Value → Bool
  | number x, number y => x.equal y
  | string s, string t => s == t
  | boolean a, boolean b => a == b
  | null, null => true
  | list xs, list ys => equalItems xs ys
  | object ⟨xs⟩, object ys => xs.length == ys.size && equalMembers xs ys
  | _, _ => false

/-- Two lists have as many items, and these are equal one by one. -/
def equalItems : List Value → List Value → Bool
  | [], [] => true
  | x :: xs, y :: ys => x.equal y && equalItems xs ys
  | _, _ => false

/-- Every pair of the list has its key in the members, over an equal value. -/
def equalMembers : List (String × Value) → Members Value → Bool
  | [], _ => true
  | (key, x) :: xs, ys =>
    (match ys.find? key with
      | some y => x.equal y
      | none => false) && equalMembers xs ys

end

end Value

end RequestDoc

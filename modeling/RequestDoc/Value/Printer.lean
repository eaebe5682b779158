import RequestDoc.Number.Shortest
import RequestDoc.Text.Quoted
import RequestDoc.Value.Basic

/-!
Printing values. A comma and a space stand between items and between members, a colon and a space
between a key and its value, and strings and keys are quoted.
-/

namespace RequestDoc.Value

mutual

/-- The printed characters of a value. -/
def chars : Value → List Char
  | number x => x.chars
  | string s => Quoted.encode s.toList
  | boolean true => ['t', 'r', 'u', 'e']
  | boolean false => ['f', 'a', 'l', 's', 'e']
  | null => ['n', 'u', 'l', 'l']
  | list [] => ['[', ']']
  | list (item :: items) => '[' :: (item.chars ++ itemsChars items)
  | object ⟨[]⟩ => ['{', '}']
  | object ⟨(key, value) :: members⟩ =>
    '{' :: (Quoted.encode key.toList ++ ':' :: ' ' :: (value.chars ++ membersChars members))

/-- The printed characters of the items that follow an item, with the closing bracket. -/
def itemsChars : List Value → List Char
  | [] => [']']
  | item :: items => ',' :: ' ' :: (item.chars ++ itemsChars items)

/-- The printed characters of the members that follow a member, with the closing brace. -/
def membersChars : List (String × Value) → List Char
  | [] => ['}']
  | (key, value) :: members =>
    ',' :: ' ' :: (Quoted.encode key.toList ++ ':' :: ' ' :: (value.chars ++ membersChars members))

end

/-- The printed text of a value. -/
def text (v : Value) : String :=
  String.ofList v.chars

end RequestDoc.Value

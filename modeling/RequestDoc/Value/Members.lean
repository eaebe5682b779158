/-!
The members of an object. They are pairs of a key and a value, in the order in which the keys were first
put in. Putting a value under a key that is already there replaces the old value and keeps its place.
-/

namespace RequestDoc

/-- Values under keys, in the order of the keys' first insertion. -/
structure Members (α : Type) where
  toList : List (String × α)
  deriving DecidableEq

namespace Members

variable {α : Type}

/-- No members. -/
def empty : Members α := ⟨[]⟩

/-- The value under a key. -/
def find? (m : Members α) (key : String) : Option α :=
  m.toList.lookup key

/-- The keys in order. -/
def keys (m : Members α) : List String :=
  m.toList.map Prod.fst

/-- How many members there are. -/
def size (m : Members α) : Nat :=
  m.toList.length

/-- There are no members. -/
def isEmpty (m : Members α) : Bool :=
  m.toList.isEmpty

/-- Puts a value under a key into a list of pairs and tells which value it replaced there. -/
def exchange (key : String) (value : α) : List (String × α) → Option α × List (String × α)
  | [] => (none, [(key, value)])
  | (k, old) :: rest =>
    if k = key then (some old, (k, value) :: rest)
    else
      let (replaced, rest) := exchange key value rest
      (replaced, (k, old) :: rest)

/-- Puts a value under a key and tells which value it replaced. -/
def getThenInsert? (m : Members α) (key : String) (value : α) : Option α × Members α :=
  let (replaced, pairs) := exchange key value m.toList
  (replaced, ⟨pairs⟩)

/-- Puts a value under a key. -/
def insert (m : Members α) (key : String) (value : α) : Members α :=
  (m.getThenInsert? key value).2

/-- The members that arise when pairs are put in one after the other. -/
def ofList (pairs : List (String × α)) : Members α :=
  pairs.foldl (fun m (key, value) => m.insert key value) empty

/-- No key stands twice. -/
def Distinct (m : Members α) : Prop :=
  m.keys.Nodup

end Members

end RequestDoc

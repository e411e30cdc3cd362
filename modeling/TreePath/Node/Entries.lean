/-!
# Ordered entries

The entries of a mapping are a list of keys with values, in the order in which the keys arrived.
The order is part of the data, because entries are also addressed by position.  A value stored under
a key that is there takes the place of the old value, and a new key goes to the end; a list built
this way holds every key once, which is the predicate `Distinct`.
-/

set_option autoImplicit false

namespace TreePath

/-- Keys with their values, in the order in which the keys arrived. -/
abbrev Entries (α : Type) := List (String × α)

namespace Entries

variable {α : Type}

/-- The keys in order. -/
def keys (entries : Entries α) : List String := entries.map (·.1)

/-- Every key occurs once. -/
def Distinct (entries : Entries α) : Prop := entries.keys.Nodup

/-- The value stored under a key. -/
def get? (entries : Entries α) (key : String) : Option α := entries.lookup key

/-- The position of a key. -/
def position? (entries : Entries α) (key : String) : Option Nat :=
  entries.findIdx? (·.1 == key)

/-- Stores a value: in place when the key is there, else at the end. -/
def put (key : String) (value : α) : Entries α → Entries α
  | [] => [(key, value)]
  | (k, v) :: rest => if k = key then (k, value) :: rest else (k, v) :: put key value rest

/-- Removes a key; the other entries keep their order. -/
def erase (entries : Entries α) (key : String) : Entries α := entries.eraseP (·.1 == key)

/-- Removes keys one after another, and keeps the removed entries in the order of the keys. -/
def eraseEach (entries : Entries α) : List String → Entries α × Entries α
  | [] => ([], entries)
  | key :: rest =>
    let (removed, kept) := eraseEach (entries.erase key) rest
    ((entries.find? (·.1 == key)).toList ++ removed, kept)

/-- Stores the values one after another, so that a repeated key keeps its first position and its last
value. -/
def ofList (pairs : List (String × α)) : Entries α :=
  pairs.foldl (fun entries pair => entries.put pair.1 pair.2) []

end Entries

end TreePath

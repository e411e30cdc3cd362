import TreePath.Binary64
import TreePath.Node.Entries

/-!
# Trees

A tree is made of nodes.  A node is a mapping with ordered entries, a sequence, or a scalar, and
there is no conversion between these shapes.  Numbers keep the kind in which they were read: an
integer of 64 bits is never equal to a float.

`Node` is plain data.  That every mapping in it has distinct keys is the predicate `Node.Distinct`,
which holds of every tree that a text was read into.
-/

set_option autoImplicit false

namespace TreePath

/-- A number in a tree. -/
inductive Number where
  | integer (value : Int64)
  | float (value : Binary64)
  deriving DecidableEq, Repr

/-- A leaf value. -/
inductive Scalar where
  | null
  | boolean (value : Bool)
  | number (value : Number)
  | string (value : String)
  deriving DecidableEq, Repr

/-- One unit of a tree. -/
inductive Node where
  | mapping (entries : List (String × Node))
  | sequence (items : List Node)
  | scalar (value : Scalar)
  deriving Repr

/-- The shape of a node. -/
inductive Kind where
  | mapping
  | sequence
  | scalar
  deriving DecidableEq, Repr

/-- The word for a shape in messages. -/
def Kind.name : Kind → String
  | .mapping => "mapping"
  | .sequence => "sequence"
  | .scalar => "scalar"

namespace Number

/-- The value as a float, an integer rounded to the closest one. -/
def toFloat : Number → Binary64
  | integer i => Binary64.ofInt i.toInt
  | float x => x

/-- The number is a machine integer and no float. -/
def isInteger : Number → Bool
  | integer _ => true
  | float _ => false

/-- Integers and floats are told apart; floats compare numerically. -/
def equal : Number → Number → Bool
  | integer i, integer j => i == j
  | float x, float y => x.equal y
  | _, _ => false

end Number

namespace Scalar

/-- Equality of values, where a NaN equals nothing. -/
def equal : Scalar → Scalar → Bool
  | null, null => true
  | boolean a, boolean b => a == b
  | number m, number n => m.equal n
  | string s, string t => s == t
  | _, _ => false

end Scalar

namespace Node

/-- The null node, which also stands for an absent value where a node is needed. -/
def null : Node := scalar .null

/-- The node that stands where no other is given is null. -/
instance : Inhabited Node := ⟨null⟩

/-- The leaf that holds a boolean. -/
def ofBool (b : Bool) : Node := scalar (.boolean b)

/-- The leaf that holds an integer. -/
def ofInt64 (i : Int64) : Node := scalar (.number (.integer i))

/-- The leaf that holds a float. -/
def ofFloat (x : Binary64) : Node := scalar (.number (.float x))

/-- The leaf that holds a text. -/
def ofString (s : String) : Node := scalar (.string s)

/-- The mapping without entries. -/
def emptyMapping : Node := mapping []

/-- The mapping that holds one entry. -/
def singleton (key : String) (value : Node) : Node := mapping [(key, value)]

/-- The shape of a node. -/
def kind : Node → Kind
  | mapping _ => .mapping
  | sequence _ => .sequence
  | scalar _ => .scalar

/-- The node is the leaf null. -/
def isNull : Node → Bool
  | scalar .null => true
  | _ => false

/-- The number of entries or items; a scalar has none. -/
def length : Node → Nat
  | mapping entries => entries.length
  | sequence items => items.length
  | scalar _ => 0

/-- True of empty containers and of null. -/
def isEmpty : Node → Bool
  | mapping entries => entries.isEmpty
  | sequence items => items.isEmpty
  | scalar value => value == .null

/-- The keys of a mapping. -/
def keys? : Node → Option (List String)
  | mapping entries => some (Entries.keys entries)
  | _ => none

/-- The items of a sequence. -/
def items? : Node → Option (List Node)
  | sequence items => some items
  | _ => none

/-- The text of a string leaf. -/
def string? : Node → Option String
  | scalar (.string s) => some s
  | _ => none

/-- The number of a number leaf. -/
def number? : Node → Option Number
  | scalar (.number n) => some n
  | _ => none

/-- The value of an integer leaf. -/
def integer? : Node → Option Int64
  | scalar (.number (.integer i)) => some i
  | _ => none

/-- The value of a number leaf as a float. -/
def float? (node : Node) : Option Binary64 := node.number?.map Number.toFloat

/-- The value of a boolean leaf. -/
def bool? : Node → Option Bool
  | scalar (.boolean b) => some b
  | _ => none

/-! ## Children by position -/

/-- The value at a position of a container. -/
def child? : Node → Nat → Option Node
  | mapping entries, position => entries[position]?.map (·.2)
  | sequence items, position => items[position]?
  | scalar _, _ => none

/-- Puts another value at a position of a container; keys and order stay. -/
def setChild : Node → Nat → Node → Node
  | mapping entries, position, value => mapping (entries.modify position fun entry => (entry.1, value))
  | sequence items, position, value => sequence (items.set position value)
  | scalar s, _, _ => scalar s

/-! ## Distinct keys -/

mutual

/-- Every mapping of the tree has distinct keys. -/
def Distinct : Node → Prop
  | mapping entries => Entries.Distinct entries ∧ distinctEntries entries
  | sequence items => distinctItems items
  | scalar _ => True

/-- The values of the entries have distinct keys. -/
def distinctEntries : List (String × Node) → Prop
  | [] => True
  | (_, value) :: rest => Distinct value ∧ distinctEntries rest

/-- The items have distinct keys. -/
def distinctItems : List Node → Prop
  | [] => True
  | item :: rest => Distinct item ∧ distinctItems rest

end

/-! ## Equality of values -/

mutual

/-- Equality of values: mappings compare as finite maps, whatever the order of their entries, and
sequences item by item. -/
def equal : Node → Node → Bool
  | mapping entries, mapping others =>
    entries.length == others.length && equalEntries entries others
  | sequence items, sequence others => equalItems items others
  | scalar a, scalar b => a.equal b
  | _, _ => false

/-- Each entry has an equal value under its key among the others. -/
def equalEntries : List (String × Node) → Entries Node → Bool
  | [], _ => true
  | (key, value) :: rest, others =>
    (match others.get? key with
      | some other => equal value other
      | none => false) && equalEntries rest others

/-- The two lists are equal item by item. -/
def equalItems : List Node → List Node → Bool
  | [], [] => true
  | item :: rest, other :: others => equal item other && equalItems rest others
  | _, _ => false

end

end Node

end TreePath

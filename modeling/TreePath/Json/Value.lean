import TreePath.Content

/-!
# JSON values

A JSON value is what a JSON text says: numbers are integers of any size or finite floats, and an
object lists its members as they were written.  Trees and JSON values convert into each other.  On
the way from a tree a float that is not finite becomes null, because JSON has no such numbers.  On
the way into a tree a repeated member keeps its first position and its last value, and an integer
that is no machine integer becomes a float.
-/

set_option autoImplicit false

namespace TreePath

namespace Json

/-- A JSON value. -/
inductive Value where
  | null
  | boolean (value : Bool)
  | number (value : Numeral)
  | string (value : String)
  | array (items : List Value)
  | object (members : List (String × Value))
  deriving Repr

end Json

namespace Node

mutual

/-- The tree of a JSON value. -/
def ofJson : Json.Value → Node
  | .null => null
  | .boolean b => ofBool b
  | .number n => scalar (.number n.toNumber)
  | .string s => ofString s
  | .array items => sequence (itemsOfJson items)
  | .object members => mapping (Entries.ofList (entriesOfJson members))

/-- The trees of the members of an object. -/
def entriesOfJson : List (String × Json.Value) → List (String × Node)
  | [] => []
  | (key, value) :: rest => (key, ofJson value) :: entriesOfJson rest

/-- The trees of the items of an array. -/
def itemsOfJson : List Json.Value → List Node
  | [] => []
  | item :: rest => ofJson item :: itemsOfJson rest

end

mutual

/-- The JSON value of a tree. -/
def toJson : Node → Json.Value
  | mapping entries => .object (entriesToJson entries)
  | sequence items => .array (itemsToJson items)
  | scalar (.string s) => .string s
  | scalar (.number (.integer i)) => .number (.integer i.toInt)
  | scalar (.number (.float x)) => if x.isFinite then .number (.float x) else .null
  | scalar (.boolean b) => .boolean b
  | scalar .null => .null

/-- The members for the entries of a mapping. -/
def entriesToJson : List (String × Node) → List (String × Json.Value)
  | [] => []
  | (key, value) :: rest => (key, toJson value) :: entriesToJson rest

/-- The JSON values of the items of a sequence. -/
def itemsToJson : List Node → List Json.Value
  | [] => []
  | item :: rest => toJson item :: itemsToJson rest

end

end Node

namespace Content

mutual

/-- The content that a JSON value delivers. -/
def ofJson : Json.Value → Content
  | .null => null
  | .boolean b => boolean b
  | .number n => number n
  | .string s => string s
  | .array items => list (itemsOfJson items)
  | .object members => map (entriesOfJson members)

/-- The content of the members of an object. -/
def entriesOfJson : List (String × Json.Value) → List (Content × Content)
  | [] => []
  | (key, value) :: rest => (string key, ofJson value) :: entriesOfJson rest

/-- The content of the items of an array. -/
def itemsOfJson : List Json.Value → List Content
  | [] => []
  | item :: rest => ofJson item :: itemsOfJson rest

end

end Content

end TreePath

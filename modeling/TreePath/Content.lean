import TreePath.Node
import TreePath.Word

/-!
# Content of unknown shape

A text format delivers values of its own kinds before anything is known about what they are for.
`Content` holds such a value: numbers as the format gave them, and maps whose keys may be of any kind
and may repeat.

`Node.ofContent?` fits content to the shapes of a tree, the first that fits in the order mapping,
sequence, null, boolean, integer, float, string.
-/

set_option autoImplicit false

namespace TreePath

/-- A number as a text format delivers it: an integer of any size, or a float. -/
inductive Numeral where
  | integer (value : Int)
  | float (value : Binary64)
  deriving DecidableEq, Repr

/-- The number that a tree keeps: an integer that is no machine integer becomes the closest float. -/
def Numeral.toNumber : Numeral → Number
  | .integer i => ((word? i).map .integer).getD (.float (Binary64.ofInt i))
  | .float x => .float x

/-- A machine integer is kept as it is. -/
theorem Numeral.toNumber_toInt (i : Int64) : (Numeral.integer i.toInt).toNumber = .integer i := by
  rw [toNumber, word?_toInt]
  rfl

/-- A value of unknown shape. -/
inductive Content where
  | null
  | boolean (value : Bool)
  | number (value : Numeral)
  | string (value : String)
  | list (items : List Content)
  | map (entries : List (Content × Content))
  deriving Repr

namespace Content

/-- Fits the null leaf. -/
def null? : Content → Option Scalar
  | null => some .null
  | _ => none

/-- Fits a boolean leaf. -/
def boolean? : Content → Option Scalar
  | boolean b => some (.boolean b)
  | _ => none

/-- Fits an integer leaf. -/
def integer? : Content → Option Scalar
  | number (.integer i) => (word? i).map fun w => .number (.integer w)
  | _ => none

/-- Fits a float leaf; integers of any size are taken as well. -/
def float? : Content → Option Scalar
  | number (.integer i) => some (.number (.float (Binary64.ofInt i)))
  | number (.float x) => some (.number (.float x))
  | _ => none

/-- Fits a string leaf. -/
def string? : Content → Option Scalar
  | string s => some (.string s)
  | _ => none

/-- Fits a leaf of any kind. -/
def scalar? (content : Content) : Option Scalar :=
  content.null? <|> content.boolean? <|> content.integer? <|> content.float? <|> content.string?

/-- Fits the key of an entry, which has to be a string. -/
def key? : Content → Option String
  | string s => some s
  | _ => none

end Content

namespace Node

mutual

/-- Fits content to a tree.  A repeated key keeps its first position and its last value. -/
def ofContent? : Content → Option Node
  | .map entries => return mapping (Entries.ofList (← entriesOfContent? entries))
  | .list items => return sequence (← itemsOfContent? items)
  | content => return scalar (← content.scalar?)

/-- Fits the entries of a map. -/
def entriesOfContent? : List (Content × Content) → Option (List (String × Node))
  | [] => some []
  | (key, value) :: rest => do
    let key ← key.key?
    let node ← ofContent? value
    return (key, node) :: (← entriesOfContent? rest)

/-- Fits the items of a list. -/
def itemsOfContent? : List Content → Option (List Node)
  | [] => some []
  | item :: rest => do
    let node ← ofContent? item
    return node :: (← itemsOfContent? rest)

end

end Node

end TreePath

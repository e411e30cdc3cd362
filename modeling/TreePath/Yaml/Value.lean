import TreePath.Content
import TreePath.Decimal.Layout

/-!
# YAML values

A YAML value is what a YAML document says once its plain scalars are resolved: any value may be a key
and any value may carry a tag.  A tree has neither, so on the way into a tree tags are dropped and
scalar keys become strings; a key that is a mapping or a sequence is refused.  Keys that become the
same string keep the first position and the last value.
-/

set_option autoImplicit false

namespace TreePath

namespace Yaml

/-- A YAML value. -/
inductive Value where
  | null
  | boolean (value : Bool)
  | number (value : Numeral)
  | string (value : String)
  | sequence (items : List Value)
  | mapping (entries : List (Value × Value))
  | tagged (tag : String) (value : Value)
  deriving Repr

/-- Floats are written positionally from `1e-5` up to `1e16`, always with a point or an exponent, and
a positive exponent has no sign. -/
def floatLayout : Decimal.Layout where
  plainFrom := some (-5)
  plainBelow := some 16
  pointZero := true
  exponentPlus := false
  tie := .toEven
  nan := ".nan"
  infinity := ".inf"

/-- The text of a number. -/
def numeralText : Numeral → String
  | .integer i => Decimal.integerText i
  | .float x => floatLayout.render x

/-- The string for a key that is a scalar behind its tags. -/
def keyText? : Value → Option String
  | .null => some "null"
  | .boolean b => some (if b then "true" else "false")
  | .number n => some (numeralText n)
  | .string s => some s
  | .tagged _ value => keyText? value
  | .sequence _ => none
  | .mapping _ => none

end Yaml

namespace Node

mutual

/-- The tree of a YAML value, nothing when a key is not a scalar. -/
def ofYaml? : Yaml.Value → Option Node
  | .null => some null
  | .boolean b => some (ofBool b)
  | .number n => some (scalar (.number n.toNumber))
  | .string s => some (ofString s)
  | .sequence items => return sequence (← itemsOfYaml? items)
  | .mapping entries => return mapping (Entries.ofList (← entriesOfYaml? entries))
  | .tagged _ value => ofYaml? value

/-- The trees of the entries of a mapping, with their keys as strings. -/
def entriesOfYaml? : List (Yaml.Value × Yaml.Value) → Option (List (String × Node))
  | [] => some []
  | (key, value) :: rest => do
    let text ← Yaml.keyText? key
    let node ← ofYaml? value
    return (text, node) :: (← entriesOfYaml? rest)

/-- The trees of the items of a sequence. -/
def itemsOfYaml? : List Yaml.Value → Option (List Node)
  | [] => some []
  | item :: rest => do
    let node ← ofYaml? item
    return node :: (← itemsOfYaml? rest)

end

mutual

/-- The YAML value of the same shape, with string keys and without tags. -/
def toYaml : Node → Yaml.Value
  | mapping entries => .mapping (entriesToYaml entries)
  | sequence items => .sequence (itemsToYaml items)
  | scalar (.string s) => .string s
  | scalar (.number (.integer i)) => .number (.integer i.toInt)
  | scalar (.number (.float x)) => .number (.float x)
  | scalar (.boolean b) => .boolean b
  | scalar .null => .null

/-- The YAML values of the entries of a mapping. -/
def entriesToYaml : List (String × Node) → List (Yaml.Value × Yaml.Value)
  | [] => []
  | (key, value) :: rest => (.string key, toYaml value) :: entriesToYaml rest

/-- The YAML values of the items of a sequence. -/
def itemsToYaml : List Node → List Yaml.Value
  | [] => []
  | item :: rest => toYaml item :: itemsToYaml rest

end

end Node

namespace Content

mutual

/-- The content that a YAML value delivers; a value with a tag of its own delivers none. -/
def ofYaml? : Yaml.Value → Option Content
  | .null => some null
  | .boolean b => some (boolean b)
  | .number n => some (number n)
  | .string s => some (string s)
  | .sequence items => return list (← itemsOfYaml? items)
  | .mapping entries => return map (← entriesOfYaml? entries)
  | .tagged _ _ => none

/-- The content of the entries of a mapping. -/
def entriesOfYaml? : List (Yaml.Value × Yaml.Value) → Option (List (Content × Content))
  | [] => some []
  | (key, value) :: rest => do
    let key ← ofYaml? key
    let value ← ofYaml? value
    return (key, value) :: (← entriesOfYaml? rest)

/-- The content of the items of a sequence. -/
def itemsOfYaml? : List Yaml.Value → Option (List Content)
  | [] => some []
  | item :: rest => do
    let item ← ofYaml? item
    return item :: (← itemsOfYaml? rest)

end

end Content

end TreePath

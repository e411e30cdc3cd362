import TreePath.Decimal.Layout
import TreePath.Json.Text
import TreePath.Json.Value

/-!
# Writing JSON

A tree is written as JSON on one line without blanks, or with every item and entry on a line of its
own, indented by its depth.  Containers without content stay on one line.  Floats that are not finite
are written as null.
-/

set_option autoImplicit false

namespace TreePath

namespace Json

/-- Floats are written positionally from `1e-5` up to `1e16`, always with a point or an exponent, and
the exponent has a sign. -/
def floatLayout : Decimal.Layout where
  plainFrom := some (-5)
  plainBelow := some 16
  pointZero := true
  exponentPlus := true
  tie := .toEven
  nan := "null"
  infinity := "null"

/-- The text of a float. -/
def floatChars (x : Binary64) : List Char :=
  if x.isFinite then (floatLayout.render x).toList else ['n', 'u', 'l', 'l']

/-- How a text is laid out. -/
inductive Style where
  /-- on one line, without blanks -/
  | compact
  /-- a line for every element, indented by this many blanks a level -/
  | indented (width : Nat)
  deriving DecidableEq, Repr

namespace Style

/-- The line break in front of an element or a closing bracket. -/
def lineBreak : Style → Nat → List Char
  | compact, _ => []
  | indented width, level => '\n' :: List.replicate (width * level) ' '

/-- What separates a key from its value. -/
def colon : Style → List Char
  | compact => [':']
  | indented _ => [':', ' ']

end Style

/-- The text of a boolean. -/
def boolChars (b : Bool) : List Char :=
  if b then ['t', 'r', 'u', 'e'] else ['f', 'a', 'l', 's', 'e']

/-- The text of a leaf. -/
def scalarChars : Scalar → List Char
  | .null => ['n', 'u', 'l', 'l']
  | .boolean b => boolChars b
  | .number (.integer i) => Decimal.integerChars i.toInt
  | .number (.float x) => floatChars x
  | .string s => quote s

mutual

/-- The text of a tree whose first line is at the given level. -/
def nodeChars (style : Style) (level : Nat) : Node → List Char
  | .mapping [] => ['{', '}']
  | .mapping ((key, value) :: rest) =>
    '{' :: style.lineBreak (level + 1) ++ quote key ++ style.colon ++
      nodeChars style (level + 1) value ++ entriesChars style (level + 1) rest ++
      style.lineBreak level ++ ['}']
  | .sequence [] => ['[', ']']
  | .sequence (item :: rest) =>
    '[' :: style.lineBreak (level + 1) ++ nodeChars style (level + 1) item ++
      itemsChars style (level + 1) rest ++ style.lineBreak level ++ [']']
  | .scalar value => scalarChars value

/-- The text of the entries behind the first. -/
def entriesChars (style : Style) (level : Nat) : List (String × Node) → List Char
  | [] => []
  | (key, value) :: rest =>
    ',' :: style.lineBreak level ++ quote key ++ style.colon ++ nodeChars style level value ++
      entriesChars style level rest

/-- The text of the items behind the first. -/
def itemsChars (style : Style) (level : Nat) : List Node → List Char
  | [] => []
  | item :: rest =>
    ',' :: style.lineBreak level ++ nodeChars style level item ++ itemsChars style level rest

end

/-- The JSON text of a tree. -/
def render (style : Style) (node : Node) : String := String.ofList (nodeChars style 0 node)

/-- The text of a number. -/
def numeralChars : Numeral → List Char
  | .integer i => Decimal.integerChars i
  | .float x => floatChars x

namespace Value

mutual

/-- The text of a JSON value on one line. -/
def chars : Value → List Char
  | null => ['n', 'u', 'l', 'l']
  | boolean b => boolChars b
  | number n => numeralChars n
  | string s => quote s
  | array items => '[' :: itemsChars items ++ [']']
  | object members => '{' :: membersChars members ++ ['}']

/-- The text of the items of an array, with commas between them. -/
def itemsChars : List Value → List Char
  | [] => []
  | [item] => item.chars
  | item :: other :: rest => item.chars ++ ',' :: itemsChars (other :: rest)

/-- The text of the members of an object, with commas between them. -/
def membersChars : List (String × Value) → List Char
  | [] => []
  | [(key, value)] => quote key ++ ':' :: value.chars
  | (key, value) :: other :: rest => quote key ++ ':' :: value.chars ++ ',' :: membersChars (other :: rest)

end

/-- The JSON text of a value on one line. -/
def render (value : Value) : String := String.ofList value.chars

end Value

end Json

end TreePath

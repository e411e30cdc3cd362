import TreePath.Decimal.Reading
import TreePath.Yaml.Value

/-!
# What plain scalars stand for

A plain scalar is null, a boolean, an integer, a float, or a string, and it is the first of these that
its text fits.  Integers may be written in radix sixteen, eight and two; a number that begins with a
superfluous zero is a string.  Integers of more than 64 bits have no value unless they exceed 128 bits
as well, where they are floats.
-/

set_option autoImplicit false

namespace TreePath

namespace Yaml

/-- What the text of a plain scalar stands for. -/
inductive Resolved where
  | null
  | boolean (value : Bool)
  | integer (value : Int)
  /-- an integer between 64 and 128 bits -/
  | wideInteger
  | float (value : Binary64)
  | string
  deriving DecidableEq, Repr

/-- The texts that stand for null. -/
def isNullText (text : String) : Bool := ["null", "Null", "NULL", "~"].contains text

/-- The value of the texts that stand for a truth value. -/
def boolean? (text : String) : Option Bool :=
  if ["true", "True", "TRUE"].contains text then some true
  else if ["false", "False", "FALSE"].contains text then some false
  else none

/-- The text without one sign. -/
def unsignedPart : List Char → List Char
  | '-' :: rest => rest
  | '+' :: rest => rest
  | rest => rest

/-- Digits with a superfluous zero in front, behind an optional sign. -/
def hasLeadingZero (text : List Char) : Bool :=
  match unsignedPart text with
  | '0' :: digits => !digits.isEmpty && digits.all Char.isDigit
  | _ => false

/-- Reads digits behind the mark of their radix, or decimal digits. -/
def magnitude? : List Char → Option Nat
  | '0' :: 'x' :: digits => Decimal.readNat 16 digits
  | '0' :: 'o' :: digits => Decimal.readNat 8 digits
  | '0' :: 'b' :: digits => Decimal.readNat 2 digits
  | digits => Decimal.readNat 10 digits

/-- Reads an integer of at most 128 bits. -/
def integer? (text : List Char) : Option Int :=
  if hasLeadingZero text then none
  else
    match text with
    | '-' :: rest =>
      (magnitude? rest).bind fun n => if n ≤ Nat.pow 2 127 then some (-(n : Int)) else none
    | _ =>
      let rest := match text with
        | '+' :: rest => rest
        | _ => text
      (magnitude? rest).bind fun n => if n < Nat.pow 2 128 then some (n : Int) else none

/-- Reads a float.  A number too large for a float is none. -/
def float? (text : List Char) : Option Binary64 :=
  let unplussed := match text with
    | '+' :: rest => rest
    | _ => text
  let name := String.ofList unplussed
  let whole := String.ofList text
  if unplussed.head? == some '+' || (unplussed != text && unplussed.head? == some '-') then none
  else if [".inf", ".Inf", ".INF"].contains name then some (Binary64.infinity false)
  else if ["-.inf", "-.Inf", "-.INF"].contains whole then some (Binary64.infinity true)
  else if [".nan", ".NaN", ".NAN"].contains whole then some Binary64.nan
  else (Decimal.readFloat unplussed).bind fun x => if x.isFinite then some x else none

/-- The integers that have a value. -/
def isWord64 (i : Int) : Bool := decide (Int64.minValue.toInt ≤ i) && decide (i < UInt64.size)

/-- What the text of a plain scalar stands for. -/
def resolve (text : String) : Resolved :=
  let chars := text.toList
  if text.isEmpty || isNullText text then .null
  else
    match boolean? text with
    | some b => .boolean b
    | none =>
      match integer? chars with
      | some i => if isWord64 i then .integer i else .wideInteger
      | none =>
        match (if hasLeadingZero chars then none else float? chars) with
        | some x => .float x
        | none => .string

/-- The value of a plain scalar. -/
def plainValue? (text : String) : Option Value :=
  match resolve text with
  | .null => some .null
  | .boolean b => some (.boolean b)
  | .integer i => some (.number (.integer i))
  | .wideInteger => none
  | .float x => some (.number (.float x))
  | .string => some (.string text)

/-- The value of a scalar that is not quoted, or of a quoted one, which is its text. -/
def untaggedValue? (plain : Bool) (text : String) : Option Value :=
  if plain then plainValue? text else some (.string text)

/-- The value of a scalar with the name of a tag.  The standard names decide how the text is read, a
name with an exclamation mark is kept, and any other makes the text a string. -/
def taggedValue? (tag : String) (plain : Bool) (text : String) : Option Value :=
  if tag.toList.head? == some '!' then (untaggedValue? plain text).map (.tagged tag)
  else if tag == "tag:yaml.org,2002:bool" then (boolean? text).map .boolean
  else if tag == "tag:yaml.org,2002:int" then
    (integer? text.toList).bind fun i => if isWord64 i then some (.number (.integer i)) else none
  else if tag == "tag:yaml.org,2002:float" then (float? text.toList).map fun x => .number (.float x)
  else if tag == "tag:yaml.org,2002:null" then (if isNullText text then some .null else none)
  else some (.string text)

/-- The value of a scalar. -/
def scalarValue? (tag : Option String) (plain : Bool) (text : String) : Option Value :=
  match tag with
  | some tag => taggedValue? tag plain text
  | none => untaggedValue? plain text

end Yaml

end TreePath

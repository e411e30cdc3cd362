import TreePath.Json.Number
import TreePath.Json.Text
import TreePath.Json.Value

/-!
# Reading JSON

The reader accepts exactly the JSON grammar, and a text is one value with blanks around it.  Arrays
and objects may be nested at most `nestingLimit` deep, so the reader recurses on the nesting that is
left.
-/

set_option autoImplicit false

namespace TreePath

namespace Json

/-- The deepest nesting of arrays and objects that is read. -/
def nestingLimit : Nat := 127

/-- True of the characters that may stand between tokens. -/
def isBlank (c : Char) : Bool := c == ' ' || c == '\n' || c == '\r' || c == '\t'

/-- The input behind its leading blanks. -/
def skipBlanks (input : List Char) : List Char := input.dropWhile isBlank

/-- Reads a value from the front of an input. -/
abbrev Reader (α : Type) := List Char → Option (α × List Char)

/-- Reads a member of an object: a string, a colon, and a value. -/
def readMember {α : Type} (value : Reader α) (input : List Char) : Option ((String × α) × List Char) := do
  match skipBlanks input with
  | '"' :: rest =>
    let (key, rest) ← readString rest
    match skipBlanks rest with
    | ':' :: rest =>
      let (value, rest) ← value rest
      return ((key, value), rest)
    | _ => none
  | _ => none

/-- Reads one or more elements with commas between them, up to the closing bracket.  The fuel bounds
their number. -/
def readElements {α : Type} (element : Reader α) (closing : Char) : Nat → Reader (List α)
  | 0, _ => none
  | fuel + 1, input => do
    let (first, rest) ← element input
    match skipBlanks rest with
    | c :: rest =>
      if c = closing then return ([first], rest)
      else if c = ',' then
        let (others, rest) ← readElements element closing fuel rest
        return (first :: others, rest)
      else none
    | [] => none

/-- Reads the elements behind an opening bracket, possibly none. -/
def readBracket {α : Type} (element : Reader α) (closing : Char) : Reader (List α) := fun input =>
  match skipBlanks input with
  | c :: rest =>
    if c = closing then some ([], rest) else readElements element closing input.length input
  | [] => none

/-- Reads a value whose containers are nested at most `depth` deep. -/
def readValue (depth : Nat) : Reader Value := fun input =>
  match skipBlanks input with
  | 'n' :: 'u' :: 'l' :: 'l' :: rest => some (.null, rest)
  | 't' :: 'r' :: 'u' :: 'e' :: rest => some (.boolean true, rest)
  | 'f' :: 'a' :: 'l' :: 's' :: 'e' :: rest => some (.boolean false, rest)
  | '"' :: rest => (readString rest).map fun (text, rest) => (.string text, rest)
  | '[' :: rest =>
    match depth with
    | 0 => none
    | depth + 1 =>
      (readBracket (readValue depth) ']' rest).map fun (items, rest) => (.array items, rest)
  | '{' :: rest =>
    match depth with
    | 0 => none
    | depth + 1 =>
      (readBracket (readMember (readValue depth)) '}' rest).map fun (members, rest) =>
        (.object members, rest)
  | rest => (readNumber rest).map fun (number, rest) => (.number number, rest)

/-- Reads a JSON text. -/
def read? (text : String) : Option Value := do
  let (value, rest) ← readValue nestingLimit text.toList
  if (skipBlanks rest).isEmpty then return value else none

end Json

end TreePath

import TreePath.Toml.Moment
import TreePath.Toml.Number
import TreePath.Toml.Value

/-!
# Reading a settings text

A text is a row of statements, each on a line of its own: a header, a repeated header, or an entry
of the table that the last header opened.  Values may be nested less than `depthLimit` deep, so the
reader of values recurses on the nesting that is left.
-/

set_option autoImplicit false

namespace TreePath

namespace Toml

/-- What a line says. -/
inductive Statement where
  | entry (key : List String) (value : Value)
  | header (key : List String)
  | repeatedHeader (key : List String)

/-- The input behind a comment, if there is one. -/
def skipComment : List Char → List Char
  | '#' :: rest => rest.dropWhile isLineChar
  | input => input

/-- The input behind blanks, line breaks and comments.  The fuel bounds the number of lines. -/
def skipGaps : Nat → List Char → List Char
  | 0, input => input
  | fuel + 1, input =>
    let rest := skipComment (skipBlanks input)
    match skipBreak? rest with
    | some rest => skipGaps fuel rest
    | none => rest

/-- The input behind all blanks, line breaks and comments. -/
def skipAllGaps (input : List Char) : List Char := skipGaps input.length input

/-- What follows the end of a line, with blanks and a comment before it. -/
def skipLineEnd? (input : List Char) : Option (List Char) :=
  match skipComment (skipBlanks input) with
  | [] => some []
  | rest => skipBreak? rest

/-- Reads one or more values with commas between them up to the closing bracket, gaps around each of
them; a comma may follow the last.  The fuel bounds their number. -/
def readItems (value : Reader Value) : Nat → Reader (List Value)
  | 0, _ => none
  | fuel + 1, input => do
    let (first, rest) ← value (skipAllGaps input)
    match skipAllGaps rest with
    | ']' :: rest => return ([first], rest)
    | ',' :: rest =>
      match skipAllGaps rest with
      | ']' :: rest => return ([first], rest)
      | rest =>
        let (others, rest) ← readItems value fuel rest
        return (first :: others, rest)
    | _ => none

/-- Reads the items of an array behind its opening bracket. -/
def readArray (value : Reader Value) (input : List Char) : Option (List Value × List Char) :=
  match skipAllGaps input with
  | ']' :: rest => some ([], rest)
  | rest => readItems value input.length rest

/-- Reads a key, the equals sign and a value. -/
def readEntry (value : Reader Value) (input : List Char) :
    Option ((List String × Value) × List Char) := do
  let (key, rest) ← readKey input
  let (value, rest) ← value (skipBlanks (← skipChar? '=' rest))
  return ((key, value), rest)

/-- Reads one or more entries with commas between them up to the closing brace.  The fuel bounds
their number. -/
def readInlineEntries (value : Reader Value) : Nat → Reader (List (List String × Value))
  | 0, _ => none
  | fuel + 1, input => do
    let (first, rest) ← readEntry value input
    match skipBlanks rest with
    | '}' :: rest => return ([first], rest)
    | ',' :: rest =>
      let (others, rest) ← readInlineEntries value fuel rest
      return (first :: others, rest)
    | _ => none

/-- Reads the entries of a table behind its opening brace. -/
def readInlineTable (value : Reader Value) (input : List Char) :
    Option (List (List String × Value) × List Char) :=
  match skipBlanks input with
  | '}' :: rest => some ([], rest)
  | rest => readInlineEntries value input.length rest

/-- Reads a date, a float or an integer. -/
def readNumeric (input : List Char) : Option (Value × List Char) :=
  match readMoment input with
  | some (moment, rest) => some (.moment moment, rest)
  | none =>
    match readFloat input with
    | some (x, rest) => some (.float x, rest)
    | none => (readInteger input).map fun (i, rest) => (.integer i, rest)

/-- Reads a value whose arrays and tables are nested at most `depth` deep. -/
def readValue (depth : Nat) : Reader Value
  | '"' :: rest => (readString .basic rest).map fun (text, rest) => (.string text, rest)
  | '\'' :: rest => (readString .literal rest).map fun (text, rest) => (.string text, rest)
  | 't' :: 'r' :: 'u' :: 'e' :: rest => some (.boolean true, rest)
  | 'f' :: 'a' :: 'l' :: 's' :: 'e' :: rest => some (.boolean false, rest)
  | '[' :: rest =>
    match depth with
    | 0 => none
    | depth + 1 => (readArray (readValue depth) rest).map fun (items, rest) => (.array items, rest)
  | '{' :: rest =>
    match depth with
    | 0 => none
    | depth + 1 => do
      let (entries, rest) ← readInlineTable (readValue depth) rest
      return (← Value.ofInlineEntries? entries, rest)
  | input => readNumeric input

/-- Reads a statement at the start of a line, with the end of the line. -/
def readStatement (input : List Char) : Option (Statement × List Char) := do
  match input with
  | '[' :: '[' :: rest =>
    let (key, rest) ← readKey rest
    let rest ← skipLineEnd? (← skipChar? ']' (← skipChar? ']' rest))
    return (.repeatedHeader key, rest)
  | '[' :: rest =>
    let (key, rest) ← readKey rest
    let rest ← skipLineEnd? (← skipChar? ']' rest)
    return (.header key, rest)
  | input =>
    let ((key, value), rest) ← readEntry (readValue (depthLimit - 1)) input
    let rest ← skipLineEnd? rest
    return (.entry key value, rest)

/-- Reads statements to the end of the input.  The fuel bounds their number. -/
def readStatements : Nat → List Char → Option (List Statement)
  | 0, _ => none
  | fuel + 1, input =>
    match skipAllGaps input with
    | [] => some []
    | rest => do
      let (statement, rest) ← readStatement rest
      let statements ← readStatements fuel rest
      return statement :: statements

/-- The statements of a text, which may start with a byte order mark. -/
def statements? (text : String) : Option (List Statement) :=
  let input := text.toList
  let input := if input.head? = some '\ufeff' then input.drop 1 else input
  readStatements (input.length + 1) input

/-- The entries in front of the first header, and the statements from there on. -/
def leadingEntries : List Statement → List (List String × Value) × List Statement
  | .entry key value :: rest =>
    let (entries, rest) := leadingEntries rest
    ((key, value) :: entries, rest)
  | rest => ([], rest)

/-- Adds the entries under each header to a table. -/
def addSections : Nat → List Statement → Table → Option Table
  | _, [], table => some table
  | 0, _ :: _, _ => none
  | fuel + 1, statement :: rest, table => do
    let (entries, rest) := leadingEntries rest
    match statement with
    | .header key =>
      addSections fuel rest (← Table.changeAt (Value.underHeader? entries) key table)
    | .repeatedHeader key =>
      addSections fuel rest (← Table.changeAt (Value.underRepeatedHeader? entries) key table)
    | .entry key value => addSections fuel rest (← Table.addEntries ((key, value) :: entries) table)

/-- The table that statements build. -/
def Table.ofStatements? (statements : List Statement) : Option Table := do
  let (entries, rest) := leadingEntries statements
  addSections rest.length rest (← Table.addEntries entries [])

/-- Reads a settings text. -/
def read? (text : String) : Option Table := do Table.ofStatements? (← statements? text)

end Toml

end TreePath

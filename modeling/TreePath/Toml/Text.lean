import TreePath.Decimal.Integer

/-!
# Strings and keys of a settings text

Strings are quoted with double quotes, where a backslash escapes, or with single quotes, where
nothing does.  Three quotes open a string over several lines, which drops a line break right behind
them and may hold one or two quotes in a row.  Keys are quoted on one line or bare, and several of
them are joined with points.
-/

set_option autoImplicit false

namespace TreePath

namespace Toml

/-- Reads something from the front of an input. -/
abbrev Reader (α : Type) := List Char → Option (α × List Char)

/-- A space or a tab. -/
def isBlank (c : Char) : Bool := c == ' ' || c == '\t'

/-- The characters that a line may hold, comments included. -/
def isLineChar (c : Char) : Bool := c == '\t' || (' ' ≤ c && c != '\x7f')

/-- The characters of bare keys. -/
def isBareKeyChar (c : Char) : Bool := c.isAlphanum || c == '_' || c == '-'

/-- The input behind its leading blanks. -/
def skipBlanks (input : List Char) : List Char := input.dropWhile isBlank

/-- The input behind a line break. -/
def skipBreak? : List Char → Option (List Char)
  | '\n' :: rest => some rest
  | '\r' :: '\n' :: rest => some rest
  | _ => none

/-- The character whose number `size` hexadecimal digits give. -/
def readCodePoint (size : Nat) (input : List Char) : Option (Char × List Char) := do
  let digits := input.take size
  let code ← Decimal.readNat 16 digits
  if digits.length = size && code.isValidChar then return (Char.ofNat code, input.drop size) else none

/-- Reads what follows a backslash. -/
def readEscape : Reader Char
  | 'b' :: rest => some ('\x08', rest)
  | 't' :: rest => some ('\t', rest)
  | 'n' :: rest => some ('\n', rest)
  | 'f' :: rest => some ('\x0c', rest)
  | 'r' :: rest => some ('\r', rest)
  | '"' :: rest => some ('"', rest)
  | '\\' :: rest => some ('\\', rest)
  | 'u' :: rest => readCodePoint 4 rest
  | 'U' :: rest => readCodePoint 8 rest
  | _ => none

/-- The two styles of quotes. -/
inductive QuoteStyle where
  | basic
  | literal
  deriving DecidableEq, Repr

/-- The quote of a style. -/
def QuoteStyle.mark : QuoteStyle → Char
  | basic => '"'
  | literal => '\''

/-- Reads the characters of a string on one line up to its closing quote.  The fuel bounds their
number. -/
def readLineChars (style : QuoteStyle) : Nat → Reader (List Char)
  | 0, _ => none
  | _, [] => none
  | fuel + 1, c :: rest =>
    if c = style.mark then some ([], rest)
    else if c = '\\' ∧ style = .basic then do
      let (c, rest) ← readEscape rest
      let (text, rest) ← readLineChars style fuel rest
      return (c :: text, rest)
    else if isLineChar c then do
      let (text, rest) ← readLineChars style fuel rest
      return (c :: text, rest)
    else none

/-- What follows a backslash at the end of a line, without the blanks and breaks up to the next
text. -/
def skipContinuation? (input : List Char) : Option (List Char) :=
  (skipBreak? (skipBlanks input)).map skipLines
where
  /-- Drops blanks and line breaks. -/
  skipLines : List Char → List Char
    | '\r' :: '\n' :: rest => skipLines rest
    | c :: rest => if isBlank c || c == '\n' then skipLines rest else c :: rest
    | [] => []

/-- Reads the characters of a string over several lines up to its closing quotes.  The fuel bounds
their number. -/
def readBlockChars (style : QuoteStyle) : Nat → Reader (List Char)
  | 0, _ => none
  | _, [] => none
  | fuel + 1, c :: rest => do
    let quotes := ((c :: rest).takeWhile (· == style.mark)).length
    if 3 ≤ quotes then
      let size := min quotes 5
      some (List.replicate (size - 3) style.mark, (c :: rest).drop size)
    else if c = '\\' ∧ style = .basic then
      match skipContinuation? rest with
      | some rest => readBlockChars style fuel rest
      | none =>
        let (c, rest) ← readEscape rest
        let (text, rest) ← readBlockChars style fuel rest
        return (c :: text, rest)
    else
      match skipBreak? (c :: rest) with
      | some rest =>
        let (text, rest) ← readBlockChars style fuel rest
        return ('\n' :: text, rest)
      | none =>
        if isLineChar c then
          let (text, rest) ← readBlockChars style fuel rest
          return (c :: text, rest)
        else none

/-- Reads a string of one line whose opening quote has been read. -/
def readLineString (style : QuoteStyle) (input : List Char) : Option (String × List Char) := do
  let (text, rest) ← readLineChars style input.length input
  return (String.ofList text, rest)

/-- Reads a string behind its first opening quote. -/
def readString (style : QuoteStyle) (input : List Char) : Option (String × List Char) := do
  if input.take 2 = [style.mark, style.mark] then
    let body := input.drop 2
    let body := (skipBreak? body).getD body
    let (text, rest) ← readBlockChars style body.length body
    return (String.ofList text, rest)
  else readLineString style input

/-- Reads a key without points. -/
def readSimpleKey : Reader String
  | '"' :: rest => readLineString .basic rest
  | '\'' :: rest => readLineString .literal rest
  | input =>
    let name := input.takeWhile isBareKeyChar
    if name.isEmpty then none else some (String.ofList name, input.dropWhile isBareKeyChar)

/-- Reads keys that are joined with points, blanks around each of them.  The fuel bounds their
number. -/
def readKeys : Nat → Reader (List String)
  | 0, _ => none
  | fuel + 1, input => do
    let (key, rest) ← readSimpleKey (skipBlanks input)
    match skipBlanks rest with
    | '.' :: rest =>
      let (keys, rest) ← readKeys fuel rest
      return (key :: keys, rest)
    | rest => return ([key], rest)

/-- The number of joined keys, and of values inside each other, that is too large. -/
def depthLimit : Nat := 80

/-- Reads a key with its points. -/
def readKey (input : List Char) : Option (List String × List Char) := do
  let (keys, rest) ← readKeys (input.length + 1) input
  if keys.length < depthLimit then return (keys, rest) else none

end Toml

end TreePath

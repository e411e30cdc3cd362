import TreePath.Yaml.Cursor
import TreePath.Yaml.Resolution

/-!
# Writing YAML

A tree is written in block style, two columns for a level; only empty containers are in flow style.
The items of a sequence that is the value of an entry are not indented further, and a container that
is an item begins on the line of its dash.

A string is written plain where it reads back as the same string.  A string that would read as
another kind of value, or that a plain scalar cannot hold, is quoted, and a string with line feeds is
a literal block; both give way to double quotes where they cannot hold the string either.  A key that
breaks a line or is too long is marked by a question mark.
-/

set_option autoImplicit false

namespace TreePath

namespace Yaml

/-! ## What a string is made of -/

/-- The characters that are written as they are. -/
def isPrintable (c : Char) : Bool :=
  let n := c.toNat
  n == 0x0A || (0x20 ≤ n && n ≤ 0x7E) || (0xA0 ≤ n && n ≤ 0xD7FF) ||
    (0xE000 ≤ n && n ≤ 0xFFFD && n != 0xFEFF) || 0x10000 ≤ n

/-- A blank, a line break, or a NUL. -/
def endsWord (c : Char) : Bool := isSpaceOrEnd c

/-- Adjacent characters of a string. -/
def pairs (text : List Char) : List (Char × Char) := text.zip (text.drop 1)

/-- An indicator at the start of a string keeps it from being plain. -/
def startsWithIndicator (text : List Char) : Bool :=
  match text with
  | [] => false
  | c :: rest =>
    let following := endsWord (rest.headD endMark)
    "#,[]\x7b\x7d&*!|>'\"%@\x60".toList.contains c || ((c == '?' || c == ':' || c == '-') && following) ||
      text.take 3 == ['-', '-', '-'] || text.take 3 == ['.', '.', '.']

/-- A colon in front of a blank, or a comment sign behind one, keeps a string from being plain. -/
def holdsIndicator (text : List Char) : Bool :=
  (pairs text).any (fun (c, d) => (c == ':' && endsWord d) || (d == '#' && endsWord c)) ||
    text.getLast? == some ':'

/-- Some character cannot be written as it is. -/
def isSpecial (text : List Char) : Bool := text.any (!isPrintable ·)

/-- A blank stands in front of a line break. -/
def hasBlankBeforeBreak (text : List Char) : Bool :=
  (pairs text).any fun (c, d) => c == ' ' && isBreak d

/-- A blank stands behind a line break. -/
def hasBlankAfterBreak (text : List Char) : Bool :=
  (pairs text).any fun (c, d) => isBreak c && d == ' '

/-- A character satisfies a test at either end of the string. -/
def atAnEnd (test : Char → Bool) (text : List Char) : Bool := text.head?.any test || text.getLast?.any test

/-- A plain scalar can hold the string. -/
def allowsPlain (text : List Char) : Bool :=
  !(isSpecial text || text.any isBreak || atAnEnd (· == ' ') text || startsWithIndicator text ||
    holdsIndicator text)

/-- Single quotes can hold the string. -/
def allowsSingle (text : List Char) : Bool :=
  !(isSpecial text || hasBlankBeforeBreak text || hasBlankAfterBreak text)

/-- A literal block can hold the string. -/
def allowsLiteral (text : List Char) : Bool :=
  !(isSpecial text || hasBlankBeforeBreak text || text.getLast? == some ' ')

/-! ## Scalars -/

/-- The presentations of a string. -/
inductive Presentation where
  | plain
  | single
  | double
  | literal
  deriving DecidableEq, Repr

/-- A plain scalar with this text would not be read as a string, or looks like a number. -/
def needsQuotes (text : String) : Bool :=
  match resolve text with
  | .string => hasLeadingZero text.toList
  | _ => true

/-- How a string is presented. -/
def presentationOf (text : String) : Presentation :=
  let chars := text.toList
  if chars.contains '\n' then (if allowsLiteral chars then .literal else .double)
  else if allowsPlain chars && !needsQuotes text then .plain
  else if allowsSingle chars then .single
  else .double

/-- The blanks in front of a line. -/
def indentation (indent : Nat) : List Char := List.replicate indent ' '

/-- The lines of a text behind a line break; empty lines are not indented. -/
def indentBreaks (indent : Nat) : Bool → List Char → List Char
  | _, [] => []
  | broken, c :: rest =>
    if isBreak c then c :: indentBreaks indent true rest
    else (if broken then indentation indent else []) ++ c :: indentBreaks indent false rest

/-- A string in single quotes, which are doubled inside. -/
def singleQuoted (indent : Nat) (text : List Char) : List Char :=
  let body := indentBreaks indent false (text.flatMap fun c => if c == '\'' then ['\'', '\''] else [c])
  '\'' :: body ++ (if text.getLast?.any isBreak then indentation indent else []) ++ ['\'']

/-- The digits of a number in a given width, in radix sixteen and upper case. -/
def hexDigits : Nat → Nat → List Char
  | 0, _ => []
  | width + 1, n =>
    let digit := n % 16
    hexDigits width (n / 16) ++ [if digit < 10 then Char.ofNat (48 + digit) else Char.ofNat (55 + digit)]

/-- The escape of a character in double quotes. -/
def escape (c : Char) : List Char :=
  match c with
  | '\x00' => ['\\', '0']
  | '\x07' => ['\\', 'a']
  | '\x08' => ['\\', 'b']
  | '\t' => ['\\', 't']
  | '\n' => ['\\', 'n']
  | '\x0b' => ['\\', 'v']
  | '\x0c' => ['\\', 'f']
  | '\r' => ['\\', 'r']
  | '\x1b' => ['\\', 'e']
  | '"' => ['\\', '"']
  | '\\' => ['\\', '\\']
  | '\u0085' => ['\\', 'N']
  | '\u2028' => ['\\', 'L']
  | '\u2029' => ['\\', 'P']
  | c =>
    if c.toNat ≤ 0xFF then '\\' :: 'x' :: hexDigits 2 c.toNat
    else if c.toNat ≤ 0xFFFF then '\\' :: 'u' :: hexDigits 4 c.toNat
    else '\\' :: 'U' :: hexDigits 8 c.toNat

/-- A string in double quotes. -/
def doubleQuoted (text : List Char) : List Char :=
  let body := text.flatMap fun c =>
    if !isPrintable c || isBreak c || c == '"' || c == '\\' then escape c else [c]
  '"' :: body ++ ['"']

/-- The header of a literal block: its indentation when the text begins with a blank or a break, and
what happens to the breaks at its end. -/
def literalHeader (text : List Char) : List Char :=
  let hint := if text.head?.any (fun c => c == ' ' || isBreak c) then ['2'] else []
  let chomping :=
    match text.reverse with
    | last :: before :: _ => if !isBreak last then ['-'] else if isBreak before then ['+'] else []
    | [last] => if isBreak last then ['+'] else ['-']
    | [] => ['-']
  '|' :: hint ++ chomping

/-- A string as a literal block. -/
def literalBlock (indent : Nat) (text : List Char) : List Char :=
  literalHeader text ++ '\n' :: indentBreaks indent true text

/-- A string whose further lines begin at column `indent`. -/
def stringChars (indent : Nat) (text : String) : List Char :=
  match presentationOf text with
  | .plain => text.toList
  | .single => singleQuoted indent text.toList
  | .double => doubleQuoted text.toList
  | .literal => literalBlock indent text.toList

/-- A scalar whose further lines begin at column `indent`. -/
def scalarChars (indent : Nat) : Scalar → List Char
  | .null => ['n', 'u', 'l', 'l']
  | .boolean b => if b then ['t', 'r', 'u', 'e'] else ['f', 'a', 'l', 's', 'e']
  | .number (.integer i) => Decimal.integerChars i.toInt
  | .number (.float x) => (floatLayout.render x).toList
  | .string s => stringChars indent s

/-! ## Containers -/

/-- The longest key that stands in front of its colon, in bytes. -/
def simpleKeyLimit : Nat := 128

/-- A key stands in front of its colon: it is not too long and does not break a line. -/
def isSimpleKey (key : String) : Bool := key.utf8ByteSize ≤ simpleKeyLimit && !key.toList.any isBreak

/-- The break between two lines, unless the first ends in one, and the indentation of the second. -/
def lineBreak (indent : Nat) (before : List Char) : List Char :=
  (if before.getLast?.any isBreak then [] else ['\n']) ++ indentation indent

/-- Puts lines below each other. -/
def joinLines (indent : Nat) : List (List Char) → List Char
  | [] => []
  | [line] => line
  | line :: next :: rest => line ++ lineBreak indent line ++ joinLines indent (next :: rest)

mutual

/-- A node on the line where it begins, at column `indent`.  A scalar is part of what begins two
columns in front of it. -/
def inlineChars (indent : Nat) : Node → List Char
  | .mapping [] => ['{', '}']
  | .mapping entries => joinLines indent (entryLines indent entries)
  | .sequence [] => ['[', ']']
  | .sequence items => joinLines indent (itemLines indent items)
  | .scalar value => scalarChars indent value

/-- What stands behind the colon of an entry at column `indent`. -/
def valueChars (indent : Nat) : Node → List Char
  | .mapping [] => [' ', '{', '}']
  | .mapping entries =>
    '\n' :: indentation (indent + 2) ++ joinLines (indent + 2) (entryLines (indent + 2) entries)
  | .sequence [] => [' ', '[', ']']
  | .sequence items => '\n' :: indentation indent ++ joinLines indent (itemLines indent items)
  | .scalar value => ' ' :: scalarChars (indent + 2) value

/-- The items of a sequence at column `indent`, each behind its dash. -/
def itemLines (indent : Nat) : List Node → List (List Char)
  | [] => []
  | item :: rest => ('-' :: ' ' :: inlineChars (indent + 2) item) :: itemLines indent rest

/-- The entries of a mapping at column `indent`. -/
def entryLines (indent : Nat) : List (String × Node) → List (List Char)
  | [] => []
  | (key, value) :: rest =>
    let keyText := stringChars (indent + 2) key
    let line :=
      if isSimpleKey key then keyText ++ ':' :: valueChars indent value
      else
        let marked := '?' :: ' ' :: keyText
        marked ++ lineBreak indent marked ++ ':' :: ' ' :: inlineChars (indent + 2) value
    line :: entryLines indent rest

end

/-- The YAML text of a tree, which ends in a line break. -/
def render (node : Node) : String :=
  let body := match node with
    | .scalar value => scalarChars 2 value
    | node => inlineChars 0 node
  String.ofList (body ++ lineBreak 0 body)

end Yaml

end TreePath

/-!
# A place in a YAML text

The characters that YAML tells apart, and a cursor that knows the line and the column of what comes
next.  Behind the last character a cursor looks at NUL, which is no character of a YAML text.
-/

set_option autoImplicit false

namespace TreePath

namespace Yaml

/-- The characters that a text may hold. -/
def isTextChar (c : Char) : Bool :=
  let n := c.toNat
  n == 0x09 || n == 0x0A || n == 0x0D || (0x20 ≤ n && n ≤ 0x7E) || n == 0x85 ||
    (0xA0 ≤ n && n ≤ 0xD7FF) || (0xE000 ≤ n && n ≤ 0xFFFD) || 0x10000 ≤ n

/-- The mark that may stand at the start of a text or a line. -/
def byteOrderMark : Char := '\ufeff'

/-- What a cursor looks at behind the text. -/
def endMark : Char := '\x00'

/-- A space or a tab. -/
def isBlank (c : Char) : Bool := c == ' ' || c == '\t'

/-- The characters that end a line. -/
def isBreak (c : Char) : Bool :=
  c == '\n' || c == '\r' || c == '\u0085' || c == '\u2028' || c == '\u2029'

/-- A line ends here. -/
def isBreakOrEnd (c : Char) : Bool := isBreak c || c == endMark

/-- A word ends here. -/
def isSpaceOrEnd (c : Char) : Bool := isBlank c || isBreakOrEnd c

/-- The characters of names. -/
def isWord (c : Char) : Bool := c.isAlphanum || c == '_' || c == '-'

/-- The indicators of flow collections. -/
def isFlowIndicator (c : Char) : Bool := c == ',' || c == '[' || c == ']' || c == '{' || c == '}'

/-- A place in a text. -/
structure Cursor where
  rest : List Char
  index : Nat
  line : Nat
  column : Nat

namespace Cursor

/-- The start of a text. -/
def start (text : List Char) : Cursor := ⟨text, 0, 0, 0⟩

/-- The character that comes after `n` others. -/
def look (c : Cursor) (n : Nat) : Char := c.rest.getD n endMark

/-- The next character. -/
def next (c : Cursor) : Char := c.look 0

/-- Moves over characters of one line. -/
def advance (c : Cursor) (n : Nat) : Cursor :=
  { c with rest := c.rest.drop n, index := c.index + n, column := c.column + n }

/-- The characters from here on that satisfy a test. -/
def takeWhile (c : Cursor) (test : Char → Bool) : List Char := c.rest.takeWhile test

/-- Moves over the characters that satisfy a test. -/
def skipWhile (c : Cursor) (test : Char → Bool) : Cursor := c.advance (c.takeWhile test).length

/-- Moves over a comment, up to the end of its line. -/
def skipComment (c : Cursor) : Cursor :=
  if c.next == '#' then c.skipWhile (!isBreak ·) else c

/-- Moves over a line break; a carriage return with a line feed is one. -/
def nextLine (c : Cursor) : Cursor :=
  let width := if c.next == '\r' && c.look 1 == '\n' then 2 else 1
  { rest := c.rest.drop width, index := c.index + width, line := c.line + 1, column := 0 }

/-- Moves over a line break, if there is one. -/
def endLine (c : Cursor) : Cursor := if isBreak c.next then c.nextLine else c

/-- The text of the line break at the cursor; the two wide separators stand for themselves, every
other break is a line feed. -/
def breakText (c : Cursor) : List Char :=
  if c.next == '\u2028' || c.next == '\u2029' then [c.next]
  else if isBreak c.next then ['\n']
  else []

/-- The marker of a document, `---` or `...`, at the start of a line. -/
def atMarker (c : Cursor) (marker : Char) : Bool :=
  c.column == 0 && c.next == marker && c.look 1 == marker && c.look 2 == marker && isSpaceOrEnd (c.look 3)

/-- Either marker of a document. -/
def atDocumentMarker (c : Cursor) : Bool := c.atMarker '-' || c.atMarker '.'

end Cursor

end Yaml

end TreePath

import TreePath.Yaml.BlockScalar
import TreePath.Yaml.FlowScalar
import TreePath.Yaml.Tag

/-!
# Tokens of a YAML text

A text becomes a list of tokens in which indentation is made explicit: block collections have a start
and an end token, and every key has a token in front of it.  A key without an indicator of its own is
known only at the colon behind it.  So the place of every token that may turn out to be a key is kept,
one for each level of flow collections, and the key token is put there afterwards.  Such a key stays
on one line and is at most `keyLimit` characters long.
-/

set_option autoImplicit false

namespace TreePath

namespace Yaml

/-- A token. -/
inductive Token where
  | version (major minor : Nat)
  | tagDirective (handle name : String)
  | documentStart
  | documentEnd
  | streamEnd
  | blockSequenceStart
  | blockMappingStart
  | blockEnd
  | flowSequenceStart
  | flowSequenceEnd
  | flowMappingStart
  | flowMappingEnd
  | blockEntry
  | flowEntry
  | key
  | value
  | alias (name : String)
  | anchor (name : String)
  | tag (text : TagText)
  | scalar (plain : Bool) (text : String)
  deriving DecidableEq, Repr

/-- The greatest length of a key without an indicator. -/
def keyLimit : Nat := 1024

/-- A place where a key may turn out to have been. -/
structure PossibleKey where
  /-- the token has to be a key, because it stands where an entry of a block mapping begins -/
  required : Bool
  /-- the position of the token -/
  token : Nat
  index : Nat
  line : Nat
  column : Nat

/-- The state between two tokens. -/
structure Scan where
  cursor : Cursor
  tokens : Array Token
  /-- the column of the innermost block collection -/
  indent : Int
  /-- the columns of the block collections around it -/
  outer : List Int
  /-- the number of flow collections around the cursor -/
  flow : Nat
  /-- a key may begin here -/
  keyAllowed : Bool
  /-- the possible key of each level of flow collections, the innermost first -/
  keys : List (Option PossibleKey)

namespace Scan

/-- The state at the start of a text. -/
def start (text : List Char) : Scan where
  cursor := Cursor.start text
  tokens := #[]
  indent := -1
  outer := []
  flow := 0
  keyAllowed := true
  keys := [none]

/-- Adds a token. -/
def push (s : Scan) (token : Token) : Scan := { s with tokens := s.tokens.push token }

/-- Adds a token that the next `n` characters make up. -/
def take (s : Scan) (n : Nat) (token : Token) : Scan :=
  { s.push token with cursor := s.cursor.advance n }

/-- Gives up the possible key of this level, which is an error if it has to be a key. -/
def dropKey (s : Scan) : Option Scan :=
  match s.keys with
  | some key :: rest => if key.required then none else some { s with keys := none :: rest }
  | _ => some s

/-- Notes that the next token may be a key. -/
def saveKey (s : Scan) : Option Scan :=
  if s.keyAllowed then do
    let s ← s.dropKey
    let c := s.cursor
    let key : PossibleKey :=
      ⟨s.flow == 0 && s.indent == c.column, s.tokens.size, c.index, c.line, c.column⟩
    return { s with keys := some key :: s.keys.drop 1 }
  else some s

/-- The key is on an earlier line or too far back to be one. -/
def isStale (c : Cursor) (key : PossibleKey) : Bool :=
  key.line < c.line || key.index + keyLimit < c.index

/-- Gives up the possible keys that can no longer be keys. -/
def dropStaleKeys (s : Scan) : Option Scan := do
  let keys ← s.keys.mapM fun key? =>
    match key? with
    | some key =>
      if isStale s.cursor key then (if key.required then none else some none) else some (some key)
    | none => some none
  return { s with keys }

/-- Opens a block collection at a column that is indented more than what is around it, with its start
token at the given position. -/
def indentTo (s : Scan) (column : Nat) (token : Token) (position : Nat) : Scan :=
  if s.flow = 0 ∧ s.indent < column then
    { s with
      indent := column
      outer := s.indent :: s.outer
      tokens := s.tokens.insertIdxIfInBounds position token }
  else s

/-- Closes the block collections that are indented more than a column. -/
def closeBlocks (column : Int) (tokens : Array Token) (indent : Int) : List Int → Array Token × Int × List Int
  | [] => (tokens, indent, [])
  | parent :: outer =>
    if column < indent then closeBlocks column (tokens.push .blockEnd) parent outer
    else (tokens, indent, parent :: outer)

/-- Closes the block collections that are indented more than a column, outside of flow collections. -/
def dedentTo (s : Scan) (column : Int) : Scan :=
  if s.flow = 0 then
    let (tokens, indent, outer) := closeBlocks column s.tokens s.indent s.outer
    { s with tokens, indent, outer }
  else s

/-- Moves over blanks, comments and line breaks.  Tabs count as blanks only where no key may begin.
The fuel bounds the number of lines. -/
def skipToToken : Nat → Scan → Scan
  | 0, s => s
  | fuel + 1, s =>
    let c := if s.cursor.column == 0 && s.cursor.next == byteOrderMark then s.cursor.advance 1 else s.cursor
    let tabs := s.flow != 0 || !s.keyAllowed
    let c := (c.skipWhile fun char => char == ' ' || (tabs && char == '\t')).skipComment
    if isBreak c.next then
      skipToToken fuel { s with cursor := c.nextLine, keyAllowed := s.keyAllowed || s.flow == 0 }
    else { s with cursor := c }

/-! ## The tokens -/

/-- Ends all block collections, as in front of a directive or a document marker. -/
def endBlocks (s : Scan) : Option Scan := do
  let s ← (s.dedentTo (-1)).dropKey
  return { s with keyAllowed := false }

/-- Reads up to nine digits. -/
def scanVersionNumber (c : Cursor) : Option (Nat × Cursor) := do
  let digits := c.takeWhile Char.isDigit
  if 9 < digits.length then none
  return (← Decimal.readNat 10 digits, c.advance digits.length)

/-- Reads the numbers of a version directive. -/
def scanVersion (c : Cursor) : Option (Token × Cursor) := do
  let (major, c) ← scanVersionNumber (c.skipWhile isBlank)
  if c.next != '.' then none
  let (minor, c) ← scanVersionNumber (c.advance 1)
  return (.version major minor, c)

/-- Reads the handle and the name of a tag directive. -/
def scanTagDirective (c : Cursor) : Option (Token × Cursor) := do
  let (handle, c) ← scanHandle (c.skipWhile isBlank)
  if handle != ['!'] && handle.getLast? != some '!' then none
  if !isBlank c.next then none
  let (name, c) ← scanTagName true (c.skipWhile isBlank)
  if !isSpaceOrEnd c.next then none
  return (.tagDirective (String.ofList handle) (String.ofList name), c)

/-- Reads a directive. -/
def fetchDirective (s : Scan) : Option Scan := do
  let s ← s.endBlocks
  let c := s.cursor.advance 1
  let name := c.takeWhile isWord
  let c := c.advance name.length
  if !isSpaceOrEnd c.next then none
  let (token, c) ←
    match String.ofList name with
    | "YAML" => scanVersion c
    | "TAG" => scanTagDirective c
    | _ => none
  let c := (c.skipWhile isBlank).skipComment
  if !isBreakOrEnd c.next then none
  return { s.push token with cursor := c.endLine }

/-- Reads the start of a flow collection. -/
def fetchFlowStart (s : Scan) (token : Token) : Option Scan := do
  let s ← s.saveKey
  return { s with flow := s.flow + 1, keys := none :: s.keys, keyAllowed := true }.take 1 token

/-- Reads the end of a flow collection. -/
def fetchFlowEnd (s : Scan) (token : Token) : Option Scan := do
  let s ← s.dropKey
  let s := { s with keyAllowed := false }.take 1 token
  if s.flow = 0 then return s
  return { s with flow := s.flow - 1, keys := s.keys.drop 1 }

/-- Reads the comma of a flow collection. -/
def fetchFlowEntry (s : Scan) : Option Scan := do
  let s ← s.dropKey
  return { s with keyAllowed := true }.take 1 .flowEntry

/-- Reads the dash of an item. -/
def fetchBlockEntry (s : Scan) : Option Scan := do
  if s.flow = 0 ∧ !s.keyAllowed then none
  let s ← (s.indentTo s.cursor.column .blockSequenceStart s.tokens.size).dropKey
  return { s with keyAllowed := true }.take 1 .blockEntry

/-- Reads the question mark of a key. -/
def fetchKey (s : Scan) : Option Scan := do
  if s.flow = 0 ∧ !s.keyAllowed then none
  let s ← (s.indentTo s.cursor.column .blockMappingStart s.tokens.size).dropKey
  return { s with keyAllowed := s.flow == 0 }.take 1 .key

/-- Reads the colon of a value, and puts a key token in front of the key that turns out to precede
it. -/
def fetchValue (s : Scan) : Option Scan :=
  match s.keys with
  | some key :: rest =>
    let s := { s with
      tokens := s.tokens.insertIdxIfInBounds key.token .key
      keys := none :: rest
      keyAllowed := false }
    some ((s.indentTo key.column .blockMappingStart key.token).take 1 .value)
  | _ =>
    if s.flow = 0 ∧ !s.keyAllowed then none
    else
      let s := s.indentTo s.cursor.column .blockMappingStart s.tokens.size
      some ({ s with keyAllowed := s.flow == 0 }.take 1 .value)

/-- Reads the name of an anchor or an alias. -/
def fetchName (s : Scan) (token : String → Token) : Option Scan := do
  let s ← s.saveKey
  let c := s.cursor.advance 1
  let name := c.takeWhile isWord
  let c := c.advance name.length
  if name.isEmpty || !(isSpaceOrEnd c.next || "?:,]\x7d%@\x60".toList.contains c.next) then none
  return { s.push (token (String.ofList name)) with cursor := c, keyAllowed := false }

/-- Reads a tag. -/
def fetchTag (s : Scan) : Option Scan := do
  let s ← s.saveKey
  let (text, c) ← scanTag (s.flow != 0) s.cursor
  return { s.push (.tag text) with cursor := c, keyAllowed := false }

/-- Reads a block scalar. -/
def fetchBlockScalar (s : Scan) (literal : Bool) : Option Scan := do
  let s ← s.dropKey
  let (text, c) ← scanBlock literal s.indent (s.cursor.advance 1)
  return { s.push (.scalar false (String.ofList text)) with cursor := c, keyAllowed := true }

/-- Reads a quoted scalar. -/
def fetchQuoted (s : Scan) (single : Bool) : Option Scan := do
  let s ← s.saveKey
  let c := s.cursor.advance 1
  let (text, c) ← scanQuoted single (c.rest.length + 1) [] c
  return { s.push (.scalar false (String.ofList text)) with cursor := c, keyAllowed := false }

/-- Reads a plain scalar.  A key may begin behind its last line break. -/
def fetchPlain (s : Scan) : Option Scan := do
  let s ← s.saveKey
  let c := s.cursor
  let (text, broken, c) ← scanPlain (s.flow != 0) (s.indent + 1).toNat (c.rest.length + 1) [] .none c
  return { s.push (.scalar true (String.ofList text)) with cursor := c, keyAllowed := broken }

/-- The characters that cannot begin a plain scalar on their own. -/
def isIndicator (c : Char) : Bool := "-?:,[]\x7b\x7d#&*!|>'\"%@\x60".toList.contains c

/-- A plain scalar begins here: with a character that is no indicator, with a dash in front of a word,
or outside of flow collections with a question mark or a colon in front of a word. -/
def startsPlain (s : Scan) : Bool :=
  let c := s.cursor
  !(isSpaceOrEnd c.next || isIndicator c.next) || (c.next == '-' && !isBlank (c.look 1)) ||
    (s.flow == 0 && (c.next == '?' || c.next == ':') && !isSpaceOrEnd (c.look 1))

/-- Reads the next token at the cursor. -/
def fetch (s : Scan) : Option Scan :=
  let c := s.cursor
  let inFlow := s.flow != 0
  if c.column == 0 && c.next == '%' then s.fetchDirective
  else if c.atMarker '-' then s.endBlocks.map (·.take 3 .documentStart)
  else if c.atMarker '.' then s.endBlocks.map (·.take 3 .documentEnd)
  else if c.next == '[' then s.fetchFlowStart .flowSequenceStart
  else if c.next == '{' then s.fetchFlowStart .flowMappingStart
  else if c.next == ']' then s.fetchFlowEnd .flowSequenceEnd
  else if c.next == '}' then s.fetchFlowEnd .flowMappingEnd
  else if c.next == ',' then s.fetchFlowEntry
  else if c.next == '-' && isSpaceOrEnd (c.look 1) then s.fetchBlockEntry
  else if c.next == '?' && (inFlow || isSpaceOrEnd (c.look 1)) then s.fetchKey
  else if c.next == ':' && (inFlow || isSpaceOrEnd (c.look 1)) then s.fetchValue
  else if c.next == '*' then s.fetchName .alias
  else if c.next == '&' then s.fetchName .anchor
  else if c.next == '!' then s.fetchTag
  else if c.next == '|' && !inFlow then s.fetchBlockScalar true
  else if c.next == '>' && !inFlow then s.fetchBlockScalar false
  else if c.next == '\'' then s.fetchQuoted true
  else if c.next == '"' then s.fetchQuoted false
  else if s.startsPlain then s.fetchPlain
  else none

/-- Reads tokens up to the end of the text.  The fuel bounds their number. -/
def run : Nat → Scan → Option (Array Token)
  | 0, _ => none
  | fuel + 1, s => do
    let s ← (skipToToken (s.cursor.rest.length + 1) s).dropStaleKeys
    if s.cursor.rest.isEmpty then
      let s ← s.endBlocks
      return s.tokens.push .streamEnd
    else
      run fuel (← (s.dedentTo s.cursor.column).fetch)

end Scan

/-- The tokens of a text, which a byte order mark may precede. -/
def tokens? (text : List Char) : Option (List Token) :=
  let text := if text.head? == some byteOrderMark then text.drop 1 else text
  if text.all isTextChar then
    (Scan.run (text.length + 1) (Scan.start text)).map Array.toList
  else none

end Yaml

end TreePath

import TreePath.Decimal.Integer
import TreePath.Yaml.Cursor

/-!
# Tags as written

A tag is a handle with a suffix, or a whole name between `!<` and `>`.  A handle is one exclamation
mark, two, or two with a word between them; directives say what a handle stands for.  Octets of a
name may be written as percent escapes.
-/

set_option autoImplicit false

namespace TreePath

namespace Yaml

/-- The characters of a tag name; the names in directives and between angles also take some flow
indicators. -/
def isTagChar (wide : Bool) (c : Char) : Bool :=
  isWord c || ";/?:@&=+$.%!~*'()".toList.contains c || (wide && (c == ',' || c == '[' || c == ']'))

/-- Reads an octet that is written as a percent sign and two digits. -/
def scanOctet (c : Cursor) : Option (Nat × Cursor) := do
  if c.next != '%' then none
  let digits := (c.rest.drop 1).take 2
  if digits.length != 2 then none
  return (← Decimal.readNat 16 digits, c.advance 3)

/-- Reads further octets of a character, six bits each. -/
def scanTrailingOctets : Nat → Nat → Cursor → Option (Nat × Cursor)
  | 0, value, c => some (value, c)
  | count + 1, value, c => do
    let (octet, c) ← scanOctet c
    if octet / 64 != 2 then none
    scanTrailingOctets count (value * 64 + octet % 64) c

/-- Reads a character that is written as percent escapes of its octets. -/
def scanPercent (c : Cursor) : Option (Char × Cursor) := do
  let (octet, c) ← scanOctet c
  let (value, c) ←
    if octet < 0x80 then some (octet, c)
    else if octet / 32 = 6 then scanTrailingOctets 1 (octet % 32) c
    else if octet / 16 = 14 then scanTrailingOctets 2 (octet % 16) c
    else if octet / 8 = 30 then scanTrailingOctets 3 (octet % 8) c
    else none
  return (Char.ofNat value, c)

/-- Reads the characters of a tag name.  The fuel bounds their number. -/
def scanTagChars (wide : Bool) : Nat → Cursor → Option (List Char × Cursor)
  | 0, c => some ([], c)
  | fuel + 1, c =>
    if c.next == '%' then do
      let (char, c) ← scanPercent c
      let (name, c) ← scanTagChars wide fuel c
      return (char :: name, c)
    else if isTagChar wide c.next then do
      let (name, after) ← scanTagChars wide fuel (c.advance 1)
      return (c.next :: name, after)
    else some ([], c)

/-- Reads a tag name, which must not be empty. -/
def scanTagName (wide : Bool) (c : Cursor) : Option (List Char × Cursor) := do
  let (name, c) ← scanTagChars wide c.rest.length c
  if name.isEmpty then none else return (name, c)

/-- Reads an exclamation mark, a word, and an exclamation mark if there is one. -/
def scanHandle (c : Cursor) : Option (List Char × Cursor) :=
  if c.next != '!' then none
  else
    let word := (c.advance 1).takeWhile isWord
    let c := c.advance (1 + word.length)
    if c.next == '!' then some ('!' :: word ++ ['!'], c.advance 1) else some ('!' :: word, c)

/-- A tag: its handle and its suffix.  A whole name has no handle. -/
structure TagText where
  handle : String
  suffix : String
  deriving DecidableEq, Repr

/-- Reads a tag with a handle.  What follows a single exclamation mark is all suffix, and a lone mark
is a name of its own. -/
def scanShorthand (c : Cursor) : Option (TagText × Cursor) := do
  let (handle, after) ← scanHandle c
  if handle.length > 1 && handle.getLast? == some '!' then
    let (suffix, c) ← scanTagName false after
    return (⟨String.ofList handle, String.ofList suffix⟩, c)
  else
    let (rest, c) ← scanTagChars false after.rest.length after
    let suffix := handle.drop 1 ++ rest
    if suffix.isEmpty then return (⟨"", "!"⟩, c)
    else return (⟨"!", String.ofList suffix⟩, c)

/-- Reads a tag, which a blank, a line end, or in a flow collection a comma has to follow. -/
def scanTag (inFlow : Bool) (c : Cursor) : Option (TagText × Cursor) := do
  let (tag, c) ←
    if c.look 1 == '<' then do
      let (name, c) ← scanTagName true (c.advance 2)
      if c.next != '>' then none
      some (⟨"", String.ofList name⟩, c.advance 1)
    else scanShorthand c
  if isSpaceOrEnd c.next || (inFlow && c.next == ',') then return (tag, c) else none

end Yaml

end TreePath

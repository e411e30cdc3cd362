import TreePath.Yaml.Cursor

/-!
# Block scalars

A block scalar is a header and the indented lines below it.  The literal style keeps its line breaks;
the folded style joins lines by blanks, except around lines that begin with a blank.  The header may
give the indentation and says what happens to the breaks at the end: they are clipped to one, stripped
or kept.
-/

set_option autoImplicit false

namespace TreePath

namespace Yaml

/-- What happens to the line breaks at the end of a block scalar. -/
inductive Chomping where
  | clip
  | strip
  | keep
  deriving DecidableEq

/-- Reads a chomping indicator. -/
def scanChomping (c : Cursor) : Option (Chomping × Cursor) :=
  if c.next == '+' then some (.keep, c.advance 1)
  else if c.next == '-' then some (.strip, c.advance 1)
  else none

/-- Reads an indentation indicator, a digit that is not zero; zero when there is none. -/
def scanIndentation (c : Cursor) : Option (Nat × Cursor) :=
  if c.next == '0' then none
  else if c.next.isDigit then some (c.next.toNat - '0'.toNat, c.advance 1)
  else some (0, c)

/-- Reads the two indicators of a header, in either order. -/
def scanHeader (c : Cursor) : Option (Chomping × Nat × Cursor) :=
  match scanChomping c with
  | some (chomping, c) => (scanIndentation c).map fun (indentation, c) => (chomping, indentation, c)
  | none => do
    let (indentation, c) ← scanIndentation c
    if indentation = 0 then return (.clip, 0, c)
    match scanChomping c with
    | some (chomping, c) => return (chomping, indentation, c)
    | none => return (.clip, indentation, c)

/-- Reads empty lines and the indentation of the line behind them, at most `indent` blanks, or any
number while the indentation is unknown.  Gives the breaks and the longest indentation seen; a tab
within the indentation is an error.  The fuel bounds the number of lines. -/
def scanEmptyLines (indent : Option Nat) : Nat → List Char → Nat → Cursor → Option (List Char × Nat × Cursor)
  | 0, _, _, _ => none
  | fuel + 1, breaks, longest, c =>
    let blanks := c.takeWhile (· == ' ')
    let width := match indent with
      | some column => min blanks.length (column - c.column)
      | none => blanks.length
    let c := c.advance width
    let longest := max longest c.column
    let inIndentation := match indent with
      | some column => decide (c.column < column)
      | none => true
    if inIndentation && c.next == '\t' then none
    else if isBreak c.next then scanEmptyLines indent fuel (breaks ++ c.breakText) longest c.nextLine
    else some (breaks, longest, c)

/-- What has been read of a block scalar. -/
structure BlockText where
  text : List Char
  /-- the break of the last line -/
  lastBreak : List Char
  /-- the breaks of the empty lines behind it -/
  emptyLines : List Char
  /-- the last line began with a blank -/
  afterBlank : Bool

/-- The text with the breaks in front of a next line. -/
def BlockText.join (block : BlockText) (literal : Bool) (nextBlank : Bool) : List Char :=
  if !literal && block.lastBreak == ['\n'] && !block.afterBlank && !nextBlank then
    block.text ++ (if block.emptyLines.isEmpty then [' '] else []) ++ block.emptyLines
  else block.text ++ block.lastBreak ++ block.emptyLines

/-- Reads the lines that begin at column `indent`.  The fuel bounds their number. -/
def scanLines (literal : Bool) (indent : Nat) : Nat → BlockText → Cursor → Option (BlockText × Cursor)
  | 0, _, _ => none
  | fuel + 1, block, c =>
    if c.column != indent || c.rest.isEmpty then some (block, c)
    else do
      let startsBlank := isBlank c.next
      let line := c.takeWhile (!isBreak ·)
      let c := c.advance line.length
      let text := block.join literal startsBlank ++ line
      let (breaks, _, after) ← scanEmptyLines (some indent) (c.rest.length + 1) [] 0 c.endLine
      scanLines literal indent fuel ⟨text, c.breakText, breaks, startsBlank⟩ after

/-- Reads a block scalar behind its indicator, in a collection that is indented by `parent`. -/
def scanBlock (literal : Bool) (parent : Int) (c : Cursor) : Option (List Char × Cursor) := do
  let (chomping, indentation, c) ← scanHeader c
  let c := (c.skipWhile isBlank).skipComment
  if !isBreakOrEnd c.next then none
  let c := c.endLine
  let given := if indentation = 0 then none else some ((max parent 0).toNat + indentation)
  let (breaks, longest, c) ← scanEmptyLines given (c.rest.length + 1) [] 0 c
  let indent := given.getD (max (max longest (parent + 1).toNat) 1)
  let (block, c) ← scanLines literal indent (c.rest.length + 1) ⟨[], [], breaks, false⟩ c
  let ending := match chomping with
    | .strip => []
    | .clip => block.lastBreak
    | .keep => block.lastBreak ++ block.emptyLines
  return (block.text ++ ending, c)

end Yaml

end TreePath

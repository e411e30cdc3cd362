import TreePath.Decimal.Integer
import TreePath.Yaml.Cursor

/-!
# Plain and quoted scalars

A plain or quoted scalar is made of runs of text with gaps between them.  A gap on one line keeps its
blanks.  A gap that breaks the line is folded: a single break becomes a blank, and of several breaks
all but the first are kept.
-/

set_option autoImplicit false

namespace TreePath

namespace Yaml

/-- What separates two runs of a scalar. -/
structure Gap where
  /-- the blanks of a gap on one line -/
  blanks : List Char
  /-- the gap breaks the line -/
  broken : Bool
  /-- the first line break; an escaped break has no text -/
  first : List Char
  /-- the breaks behind the first -/
  others : List Char

namespace Gap

/-- No gap. -/
def none : Gap := ⟨[], false, [], []⟩

/-- The gap behind a line break that was escaped. -/
def escaped : Gap := ⟨[], true, [], []⟩

/-- The text that a gap stands for. -/
def text (gap : Gap) : List Char :=
  if !gap.broken then gap.blanks
  else if gap.first == ['\n'] then (if gap.others.isEmpty then [' '] else gap.others)
  else gap.first ++ gap.others

/-- Reads blanks and breaks.  Behind a break, a tab in front of column `tabLimit` is an error.  The
fuel bounds the number of characters. -/
def scan (tabLimit : Nat) : Nat → Gap → Cursor → Option (Gap × Cursor)
  | 0, gap, c => some (gap, c)
  | fuel + 1, gap, c =>
    if isBlank c.next then
      if !gap.broken then scan tabLimit fuel { gap with blanks := gap.blanks ++ [c.next] } (c.advance 1)
      else if c.next == '\t' && decide (c.column < tabLimit) then Option.none
      else scan tabLimit fuel gap (c.advance 1)
    else if isBreak c.next then
      let gap :=
        if gap.broken then { gap with others := gap.others ++ c.breakText }
        else ⟨[], true, c.breakText, []⟩
      scan tabLimit fuel gap c.nextLine
    else some (gap, c)

end Gap

/-! ## Plain scalars -/

/-- The next run of a plain scalar, which a blank, a colon with a blank, or in a flow collection one of
its indicators ends.  In a flow collection a colon in front of an indicator is an error. -/
def plainRun (inFlow : Bool) : List Char → Option (List Char)
  | [] => some []
  | c :: rest =>
    let following := rest.headD endMark
    if isSpaceOrEnd c then some []
    else if inFlow && c == ':' && (isFlowIndicator following || following == '?') then none
    else if (c == ':' && isSpaceOrEnd following) || (inFlow && isFlowIndicator c) then some []
    else (plainRun inFlow rest).map (c :: ·)

/-- Reads a plain scalar whose lines have to begin at column `indent` or behind it, outside of flow
collections.  Gives the text, whether a line break follows it, and the place behind the blanks that
follow.  The fuel bounds the number of runs. -/
def scanPlain (inFlow : Bool) (indent : Nat) :
    Nat → List Char → Gap → Cursor → Option (List Char × Bool × Cursor)
  | 0, _, _, _ => none
  | fuel + 1, text, gap, c =>
    if c.atDocumentMarker || c.next == '#' then some (text, gap.broken, c)
    else do
      let run ← plainRun inFlow c.rest
      let text := if run.isEmpty then text else text ++ gap.text ++ run
      let broken := gap.broken && run.isEmpty
      let c := c.advance run.length
      if !(isBlank c.next || isBreak c.next) then return (text, broken, c)
      let (gap, c) ← Gap.scan indent c.rest.length .none c
      if !inFlow && decide (c.column < indent) then return (text, gap.broken, c)
      scanPlain inFlow indent fuel text gap c

/-! ## Quoted scalars -/

/-- What an escaped character stands for, or how many hexadecimal digits follow it. -/
def escapeOf? (c : Char) : Option (Char ⊕ Nat) :=
  match c with
  | '0' => some (.inl '\x00')
  | 'a' => some (.inl '\x07')
  | 'b' => some (.inl '\x08')
  | 't' => some (.inl '\t')
  | '\t' => some (.inl '\t')
  | 'n' => some (.inl '\n')
  | 'v' => some (.inl '\x0b')
  | 'f' => some (.inl '\x0c')
  | 'r' => some (.inl '\r')
  | 'e' => some (.inl '\x1b')
  | ' ' => some (.inl ' ')
  | '"' => some (.inl '"')
  | '/' => some (.inl '/')
  | '\\' => some (.inl '\\')
  | 'N' => some (.inl '\u0085')
  | '_' => some (.inl '\u00a0')
  | 'L' => some (.inl '\u2028')
  | 'P' => some (.inl '\u2029')
  | 'x' => some (.inr 2)
  | 'u' => some (.inr 4)
  | 'U' => some (.inr 8)
  | _ => none

/-- The character of a code point, surrogates and numbers beyond the last one excluded. -/
def ofCodePoint? (n : Nat) : Option Char :=
  if (0xD800 ≤ n ∧ n ≤ 0xDFFF) ∨ 0x10FFFF < n then none else some (Char.ofNat n)

/-- Reads an escape at its backslash. -/
def scanEscape (c : Cursor) : Option (Char × Cursor) := do
  match ← escapeOf? (c.look 1) with
  | .inl char => return (char, c.advance 2)
  | .inr count =>
    let digits := (c.rest.drop 2).take count
    if digits.length != count then none
    let char ← ofCodePoint? (← Decimal.readNat 16 digits)
    return (char, c.advance (2 + count))

/-- How a run of a quoted scalar ends. -/
inductive RunEnd where
  | quote
  | space
  | escapedBreak
  deriving DecidableEq

/-- Reads a run of a quoted scalar.  The fuel bounds the number of characters. -/
def quotedRun (single : Bool) : Nat → Cursor → Option (List Char × RunEnd × Cursor)
  | 0, _ => none
  | fuel + 1, c =>
    if isSpaceOrEnd c.next then some ([], .space, c)
    else if single && c.next == '\'' && c.look 1 == '\'' then do
      let (run, ending, c) ← quotedRun single fuel (c.advance 2)
      return ('\'' :: run, ending, c)
    else if c.next == (if single then '\'' else '"') then some ([], .quote, c)
    else if !single && c.next == '\\' && isBreak (c.look 1) then
      some ([], .escapedBreak, (c.advance 1).nextLine)
    else if !single && c.next == '\\' then do
      let (char, c) ← scanEscape c
      let (run, ending, c) ← quotedRun single fuel c
      return (char :: run, ending, c)
    else do
      let (run, ending, after) ← quotedRun single fuel (c.advance 1)
      return (c.next :: run, ending, after)

/-- Reads a quoted scalar behind its opening quote.  The fuel bounds the number of runs. -/
def scanQuoted (single : Bool) : Nat → List Char → Cursor → Option (List Char × Cursor)
  | 0, _, _ => none
  | fuel + 1, text, c =>
    if c.atDocumentMarker || c.rest.isEmpty then none
    else do
      let (run, ending, c) ← quotedRun single (c.rest.length + 1) c
      let text := text ++ run
      if c.next == (if single then '\'' else '"') then return (text, c.advance 1)
      let start := if ending == .escapedBreak then Gap.escaped else Gap.none
      let (gap, c) ← Gap.scan 0 c.rest.length start c
      scanQuoted single fuel (text ++ gap.text) c

end Yaml

end TreePath

import TreePath.Decimal.Integer
import TreePath.Path.Slice

/-!
# Segments and paths

A path is a list of segments, each a step from a node to a part of it.  `Path.render` gives the
canonical text: names and the root token are separated by points, and a bracket follows what is in
front of it directly.
-/

set_option autoImplicit false

namespace TreePath

/-- One step of a path. -/
inductive Segment where
  /-- the node itself -/
  | root
  /-- the value under a name -/
  | key (name : String)
  /-- the value at a position, counted from the end when negative -/
  | index (position : Int64)
  /-- the values at a range of positions -/
  | slice (range : Slice)
  deriving DecidableEq, Repr

/-- A path; the empty one addresses the whole tree. -/
abbrev Path := List Segment

namespace Slice

/-- The text of a bound, empty for a missing one. -/
def boundChars (bound : Option Int64) : List Char :=
  bound.elim [] fun b => Decimal.integerChars b.toInt

/-- The bracket of the slice; a step of one is not written. -/
def chars (slice : Slice) : List Char :=
  '[' :: boundChars slice.start ++ ':' :: boundChars slice.stop ++
    (if slice.step = 1 then [] else ':' :: Decimal.integerChars slice.step.toInt) ++ [']']

/-- The text of the slice. -/
def render (slice : Slice) : String := String.ofList slice.chars

end Slice

namespace Segment

/-- True of the segments that are written in brackets. -/
def isPositional : Segment → Bool
  | index _ => true
  | slice _ => true
  | _ => false

/-- The characters of the text of a segment. -/
def chars : Segment → List Char
  | root => ['$']
  | key name => name.toList
  | index i => '[' :: Decimal.integerChars i.toInt ++ [']']
  | slice range => range.chars

/-- The text of a segment. -/
def render (segment : Segment) : String := String.ofList segment.chars

end Segment

namespace Path

/-- The characters of the segments that follow the first, each name with its point. -/
def restChars : Path → List Char
  | [] => []
  | segment :: rest =>
    (if segment.isPositional then [] else ['.']) ++ segment.chars ++ restChars rest

/-- The characters of the canonical text. -/
def chars : Path → List Char
  | [] => []
  | segment :: rest => segment.chars ++ restChars rest

/-- The canonical text of a path. -/
def render (path : Path) : String := String.ofList (chars path)

/-- The text that addresses one position of the root. -/
def indexText (position : Int64) : String := render [.root, .index position]

/-- The text that addresses a range of the root; without a step it is one. -/
def sliceText (start stop step : Option Int64) : String :=
  render [.root, .slice ⟨start, stop, step.getD 1⟩]

end Path

end TreePath

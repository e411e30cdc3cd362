import TreePath.Path.Error
import TreePath.Path.Token

/-!
# Reading paths

Every token of a path text stands for one segment.  The token `$` is the root, a token in brackets
is an index or a slice, and any other token is a name.  The first token that is no segment decides
the error.
-/

set_option autoImplicit false

namespace TreePath

namespace Segment

/-- Reads a number of a bracket. -/
def readNumber (token : String) (text : List Char) : Except PathError Int64 :=
  match Decimal.readInt64 text with
  | some i => .ok i
  | none => .error (.invalidSegment token (.notANumber (String.ofList text)))

/-- Reads a bound of a bracket, where nothing stands for a missing bound. -/
def readBound (token : String) (text : List Char) : Except PathError (Option Int64) :=
  if text.isEmpty then .ok none else (readNumber token text).map some

/-- Reads the content of a bracket, given as its parts between colons.  The step is read first. -/
def ofParts (token : String) : List (List Char) → Except PathError Segment
  | [position] => do
    return index (← readNumber token position)
  | [start, stop] => do
    return slice ⟨← readBound token start, ← readBound token stop, 1⟩
  | [start, stop, step] => do
    let step := (← readBound token step).getD 1
    if step = 0 then .error (.invalidSegment token .zeroStep)
    else return slice ⟨← readBound token start, ← readBound token stop, step⟩
  | _ => .error (.invalidSegment token .tooManySeparators)

/-- What stands between the brackets of a token that begins and ends with one. -/
def bracketContent? : List Char → Option (List Char)
  | '[' :: rest => if rest.getLast? = some ']' then some rest.dropLast else none
  | _ => none

/-- The segment that a token stands for. -/
def ofToken (token : String) : Except PathError Segment :=
  if token = "$" then .ok root
  else
    match bracketContent? token.toList with
    | some content => ofParts token (content.splitOn ':')
    | none => .ok (key token)

end Segment

namespace Path

/-- Reads a path text. -/
def parse (text : String) : Except PathError Path := (tokens text).mapM Segment.ofToken

end Path

end TreePath

/-!
# Tokens of a path text

A path text is cut at its points.  Each component is searched from left to right for bracket groups
and cut in front of every group that is found; the search goes on behind the group.  Empty pieces are
dropped.

A bracket group begins with a number or with a colon in its bracket.  Behind that come any number of
colons, each with or without a number behind it.  A number is an optional minus with digits.  Any other
bracket stays in the name it is part of.
-/

set_option autoImplicit false

namespace TreePath

namespace Path

/-- How far a bracket group has been read: up to its opening bracket, a minus, a digit or a colon. -/
inductive GroupState where
  | opened
  | minus
  | digit
  | colon
  deriving DecidableEq, Repr

namespace GroupState

/-- The state behind one more character, nothing where no group goes on with it. -/
def next? (state : GroupState) (c : Char) : Option GroupState :=
  if c.isDigit then some digit
  else
    match state with
    | opened => if c = '-' then some minus else if c = ':' then some colon else none
    | minus => none
    | digit => if c = ':' then some colon else none
    | colon => if c = '-' then some minus else if c = ':' then some colon else none

/-- The group may be closed: something has been read, and no minus is left without a digit. -/
def closes : GroupState → Bool
  | opened => false
  | minus => false
  | digit => true
  | colon => true

end GroupState

/-- Reads the rest of a group, up to its closing bracket. -/
def readGroup? (state : GroupState) : List Char → Option (List Char)
  | [] => none
  | c :: rest =>
    if c = ']' then if state.closes then some [c] else none
    else
      match state.next? c with
      | some next => (readGroup? next rest).map (c :: ·)
      | none => none

/-- The bracket group that a text begins with. -/
def frontGroup? : List Char → Option (List Char)
  | '[' :: rest => (readGroup? .opened rest).map ('[' :: ·)
  | _ => none

/-- Cuts a component in front of every bracket group, in one pass.  `piece` is what stands since the
last cut, and `inside` counts the characters that are left of a group that was found. -/
def splitGroups (piece : List Char) (inside : Nat) : List Char → List (List Char)
  | [] => [piece]
  | c :: rest =>
    match inside with
    | inside + 1 => splitGroups (piece ++ [c]) inside rest
    | 0 =>
      match frontGroup? (c :: rest) with
      | some group => piece :: splitGroups [c] (group.length - 1) rest
      | none => splitGroups (piece ++ [c]) 0 rest

/-- The tokens of a text as lists of characters. -/
def tokenChars (text : List Char) : List (List Char) :=
  ((text.splitOn '.').flatMap (splitGroups [] 0)).filter (!·.isEmpty)

/-- The tokens of a path text. -/
def tokens (text : String) : List String := (tokenChars text.toList).map String.ofList

end Path

end TreePath

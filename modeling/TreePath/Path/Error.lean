import TreePath.Node
import TreePath.Path.Segment

/-!
# Errors of paths

What can go wrong when a path is read or applied to a tree.  An error names its cause; the wording
is in `PathError.message` and nowhere else.  Absence is no error for reading and deleting.
-/

set_option autoImplicit false

namespace TreePath

/-- The two ways to change a tree. -/
inductive Action where
  | write
  | delete
  deriving DecidableEq, Repr

/-- Why a bracket is no segment. -/
inductive SegmentFault where
  | zeroStep
  | tooManySeparators
  | notANumber (text : String)
  deriving DecidableEq, Repr

/-- Why a value cannot be spread over a range. -/
inductive AssignmentFault where
  | rangeOfKeys
  | notASequence (found : Kind)
  | lengthMismatch (values positions : Nat)
  deriving DecidableEq, Repr

/-- The errors of paths. -/
inductive PathError where
  /-- A bracket that is neither an index nor a slice. -/
  | invalidSegment (token : String) (fault : SegmentFault)
  /-- The node itself can be neither overwritten nor removed in place. -/
  | protectedRoot (action : Action)
  /-- A segment that does not apply to a node of this shape. -/
  | typeMismatch (segment : Segment) (found : Kind)
  /-- A slice where one child has to be chosen. -/
  | ambiguousBranch (segment : Segment)
  /-- A value that cannot be spread over the selected positions. -/
  | invalidAssignment (segment : Segment) (fault : AssignmentFault)
  /-- An index outside the container. -/
  | indexOutOfRange (index : Int64) (length : Nat) (found : Kind)
  /-- A path text longer than its limit, in bytes. -/
  | pathTooLong (length limit : Nat)
  deriving DecidableEq, Repr

/-- The verb for an action in messages. -/
def Action.verb : Action → String
  | .write => "write"
  | .delete => "delete"

namespace SegmentFault

/-- The words for the fault. -/
def message : SegmentFault → String
  | zeroStep => "slice step cannot be zero"
  | tooManySeparators => "expected at most two ':' separators"
  | notANumber text => "invalid number '" ++ text ++ "'"

end SegmentFault

namespace AssignmentFault

/-- The words for the fault. -/
def message : AssignmentFault → String
  | rangeOfKeys => "one value cannot be assigned to a range of keys"
  | notASequence found => "expected a sequence, got a " ++ found.name
  | lengthMismatch values positions =>
    "cannot assign " ++ Decimal.integerText values ++ " values to an extended slice of " ++
      Decimal.integerText positions

end AssignmentFault

namespace PathError

/-- The text shown for an error. -/
def message : PathError → String
  | invalidSegment token fault => "Invalid path segment '" ++ token ++ "': " ++ fault.message
  | protectedRoot action => "Cannot " ++ action.verb ++ " the node addressed by '$'"
  | typeMismatch segment found =>
    "Segment '" ++ segment.render ++ "' cannot be applied to a " ++ found.name
  | ambiguousBranch segment =>
    "Slice '" ++ segment.render ++ "' cannot select a single branch to descend into"
  | invalidAssignment segment fault =>
    "Cannot assign to '" ++ segment.render ++ "': " ++ fault.message
  | indexOutOfRange index length found =>
    "Index " ++ Decimal.integerText index.toInt ++ " out of range for " ++ found.name ++
      " of length " ++ Decimal.integerText length
  | pathTooLong length limit =>
    "Path is " ++ Decimal.integerText length ++ " bytes long, limit is " ++
      Decimal.integerText limit

end PathError

end TreePath

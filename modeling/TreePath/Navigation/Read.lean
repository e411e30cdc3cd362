import TreePath.Path.Error

/-!
# Reading along a path

A name selects an entry of a mapping, an index an item of a sequence or an entry of a mapping by its
place in the key order.  In the middle of a path both lead to one child, whose position `position`
finds.  At the end of a path an index on a mapping yields a mapping of that one entry, and a slice
yields the selected part of its container.  The root token stays where it is.

A name that is not there makes a read come back with nothing; everything else that does not fit the
tree is an error.
-/

set_option autoImplicit false

namespace TreePath

/-- The position in a container of `length` items that an index stands for. -/
def resolveIndex (index : Int64) (length : Nat) (found : Kind) : Except PathError Nat :=
  let resolved := if index < 0 then index + Int64.ofNat length else index
  if 0 ≤ resolved ∧ resolved.toInt.toNat < length then .ok resolved.toInt.toNat
  else .error (.indexOutOfRange index length found)

namespace Node

/-- The segment does not apply to a node of this shape. -/
def mismatch {α : Type} (node : Node) (segment : Segment) : Except PathError α :=
  .error (.typeMismatch segment node.kind)

/-- A slice cannot lead to one child. -/
def noBranch {α : Type} (node : Node) (segment : Segment) : Except PathError α :=
  match node with
  | scalar _ => node.mismatch segment
  | _ => .error (.ambiguousBranch segment)

/-- The position of the child that a segment in the middle of a path leads to, nothing when the name
is not there. -/
def position (node : Node) (segment : Segment) : Except PathError (Option Nat) :=
  match segment, node with
  | .key name, mapping entries => .ok (Entries.position? entries name)
  | .index i, mapping entries => (resolveIndex i entries.length .mapping).map some
  | .index i, sequence items => (resolveIndex i items.length .sequence).map some
  | .slice _, node => node.noBranch segment
  | _, node => node.mismatch segment

/-- What a segment at the end of a path reads. -/
def readLast (node : Node) (segment : Segment) : Except PathError (Option Node) :=
  match segment, node with
  | .root, node => .ok (some node)
  | .key name, mapping entries => .ok (Entries.get? entries name)
  | .index i, mapping entries => do
    let position ← resolveIndex i entries.length .mapping
    return entries[position]?.map fun (key, value) => singleton key value
  | .index i, sequence items => do
    let position ← resolveIndex i items.length .sequence
    return items[position]?
  | .slice range, mapping entries =>
    .ok (some (mapping (Entries.ofList (pick entries (range.positions entries.length)))))
  | .slice range, sequence items =>
    .ok (some (sequence (pick items (range.positions items.length))))
  | segment, node => node.mismatch segment

/-- Reads the part of a tree that a path addresses. -/
def read (node : Node) : Path → Except PathError (Option Node)
  | [] => .ok (some node)
  | [segment] => node.readLast segment
  | .root :: rest => node.read rest
  | segment :: rest =>
    match node.position segment with
    | .error e => .error e
    | .ok none => .ok none
    | .ok (some position) =>
      match node.child? position with
      | some child => child.read rest
      | none => .ok none

end Node

end TreePath

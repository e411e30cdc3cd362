import TreePath.Navigation.Read

/-!
# Changing a tree along a path

A mutation stores a value at the end of a path or removes what is there.  Its result and the tree
afterwards are kept side by side in a `Change`, because a write that fails may leave something: names
that are missing on the way are created as empty mappings before the rest of the path is tried.

A write answers with the value that it replaced, or with a copy of its own value where there was
none.  A deletion answers with what it removed.
-/

set_option autoImplicit false

namespace TreePath

/-- A change to apply at the end of a path. -/
inductive Mutation where
  /-- stores the value, replacing what is there -/
  | write (value : Node)
  /-- removes the addressed value -/
  | delete
  deriving Repr

/-- The action of a mutation. -/
def Mutation.action : Mutation → Action
  | .write _ => .write
  | .delete => .delete

/-- The result of an operation on a tree together with the tree that it leaves. -/
structure Change (α : Type) where
  result : Except PathError α
  tree : Node
  deriving Inhabited

namespace Change

variable {α β : Type}

/-- The operation succeeded. -/
def done (result : α) (tree : Node) : Change α := ⟨.ok result, tree⟩

/-- The operation failed and left the tree. -/
def failed (error : PathError) (tree : Node) : Change α := ⟨.error error, tree⟩

/-- Applies a function to the result. -/
def map (f : α → β) (change : Change α) : Change β := ⟨change.result.map f, change.tree⟩

/-- Puts the tree into its place in a larger one. -/
def within (place : Node → Node) (change : Change α) : Change α := ⟨change.result, place change.tree⟩

end Change

/-- Assigns a value to a slice of a sequence, giving the old items of the slice and the new sequence.
A slice of step one is replaced as a whole, so the sequence may grow and shrink; any other step needs
one value for each position. -/
def assignSlice (items : List Node) (range : Slice) (value : Node) :
    Except AssignmentFault (List Node × List Node) :=
  match value with
  | .sequence values =>
    if range.step = 1 then
      let start := (range.bounds items.length).1.toInt.toNat
      let stop := max (range.bounds items.length).2.toInt.toNat start
      .ok ((items.take stop).drop start, items.take start ++ values ++ items.drop stop)
    else
      let positions := range.positions items.length
      if positions.length = values.length then
        .ok (exchange items (positions.zip values))
      else .error (.lengthMismatch values.length positions.length)
  | other => .error (.notASequence other.kind)

namespace Node

/-- Writes at the end of a path. -/
def writeLast (value node : Node) (segment : Segment) : Change (Option Node) :=
  match segment, node with
  | .root, node => .failed (.protectedRoot .write) node
  | .key name, mapping entries =>
    .done (some ((Entries.get? entries name).getD value)) (mapping (Entries.put name value entries))
  | .index i, mapping entries =>
    match resolveIndex i entries.length .mapping with
    | .ok position =>
      .done (entries[position]?.map fun (key, old) => singleton key old) (node.setChild position value)
    | .error e => .failed e node
  | .index i, sequence items =>
    match resolveIndex i items.length .sequence with
    | .ok position => .done items[position]? (node.setChild position value)
    | .error e => .failed e node
  | .slice _, mapping _ => .failed (.invalidAssignment segment .rangeOfKeys) node
  | .slice range, sequence items =>
    match assignSlice items range value with
    | .ok (old, new) => .done (some (sequence old)) (sequence new)
    | .error fault => .failed (.invalidAssignment segment fault) node
  | segment, node => ⟨node.mismatch segment, node⟩

/-- Deletes at the end of a path. -/
def deleteLast (node : Node) (segment : Segment) : Change (Option Node) :=
  match segment, node with
  | .root, node => .failed (.protectedRoot .delete) node
  | .key name, mapping entries =>
    .done (Entries.get? entries name) (mapping (Entries.erase entries name))
  | .index i, mapping entries =>
    match resolveIndex i entries.length .mapping with
    | .ok position =>
      .done (entries[position]?.map fun (key, old) => singleton key old)
        (mapping (entries.eraseIdx position))
    | .error e => .failed e node
  | .index i, sequence items =>
    match resolveIndex i items.length .sequence with
    | .ok position => .done items[position]? (sequence (items.eraseIdx position))
    | .error e => .failed e node
  | .slice range, mapping entries =>
    let keys := Entries.keys (pick entries (range.positions entries.length))
    let (removed, kept) := Entries.eraseEach entries keys
    .done (some (mapping (Entries.ofList removed))) (mapping kept)
  | .slice range, sequence items =>
    let positions := range.positions items.length
    .done (some (sequence (pick items positions)))
      (sequence (unmarked items (marks items.length positions)))
  | segment, node => ⟨node.mismatch segment, node⟩

/-- Applies a mutation at the end of a path. -/
def mutateLast (mutation : Mutation) (node : Node) (segment : Segment) : Change (Option Node) :=
  match mutation with
  | .write value => writeLast value node segment
  | .delete => deleteLast node segment

/-- The mapping with one more entry, under a key that it does not have yet. -/
def appendEntry (node : Node) (segment : Segment) (value : Node) : Node :=
  match segment, node with
  | .key name, mapping entries => mapping (entries ++ [(name, value)])
  | _, node => node

/-- Applies a mutation at the end of a path, creating missing mappings on the way of a write. -/
def mutate (mutation : Mutation) (node : Node) : Path → Change (Option Node)
  | [] => .failed (.protectedRoot mutation.action) node
  | [segment] => mutateLast mutation node segment
  | .root :: rest => mutate mutation node rest
  | segment :: rest =>
    match node.position segment with
    | .error e => .failed e node
    | .ok (some position) =>
      match node.child? position with
      | some child => (mutate mutation child rest).within (node.setChild position)
      | none => .done none node
    | .ok none =>
      match mutation with
      | .write _ => (mutate mutation emptyMapping rest).within (node.appendEntry segment)
      | .delete => .done none node

/-- Writes a value and answers with the one that it replaced. -/
def write (value node : Node) (path : Path) : Change Node :=
  (mutate (.write value) node path).map (·.getD null)

/-- Deletes what is there and answers with it. -/
def delete (node : Node) (path : Path) : Change (Option Node) := mutate .delete node path

end Node

end TreePath

import TreePath.Navigation.Mutation
import TreePath.Path.Parse

/-!
# Access by path

The operations on a tree that take a path, as segments or as text.  Reads and deletions are tolerant
of absence; writes fail on any path that does not fit the tree.  The empty path addresses the whole
tree: it can be read and replaced but not removed.

`Tree` adds a limit on the length of path texts, in bytes, which is checked before a path is read.
-/

set_option autoImplicit false

namespace TreePath

namespace Node

/-- Stores a value; the empty path replaces the whole tree. -/
def writeAt (node : Node) (path : Path) (value : Node) : Change Node :=
  if path.isEmpty then .done node value else write value node path

/-- Removes what a path addresses; the whole tree stays. -/
def deleteAt (node : Node) (path : Path) : Change (Option Node) :=
  if path.isEmpty then .failed (.protectedRoot .delete) node else delete node path

/-- What a path text addresses. -/
def readText (node : Node) (text : String) : Except PathError (Option Node) := do
  node.read (← Path.parse text)

/-- What a path text addresses, or a default. -/
def readTextOr (node : Node) (text : String) (default : Node) : Except PathError Node := do
  return (← node.readText text).getD default

/-- A path text addresses a value that is not null. -/
def containsText (node : Node) (text : String) : Except PathError Bool := do
  return (← node.readText text).any (!·.isNull)

/-- Stores a value at a path text. -/
def writeText (node : Node) (text : String) (value : Node) : Change Node :=
  match Path.parse text with
  | .ok path => node.writeAt path value
  | .error e => .failed e node

/-- Removes what a path text addresses. -/
def deleteText (node : Node) (text : String) : Change (Option Node) :=
  match Path.parse text with
  | .ok path => node.deleteAt path
  | .error e => .failed e node

end Node

/-- A tree addressed by path texts, with an optional limit on their length in bytes. -/
structure Tree where
  root : Node
  limit : Option Nat

namespace Tree

/-- A tree without a limit. -/
def ofNode (root : Node) : Tree := ⟨root, none⟩

/-- The empty mapping without a limit. -/
def empty : Tree := ofNode .emptyMapping

/-- Reads a path text that keeps the limit. -/
def parse (tree : Tree) (text : String) : Except PathError Path :=
  match tree.limit with
  | some limit =>
    if limit < text.utf8ByteSize then .error (.pathTooLong text.utf8ByteSize limit)
    else Path.parse text
  | none => Path.parse text

/-- The result of a change, and the tree that it leaves under the same limit. -/
def afterChange {α : Type} (tree : Tree) (change : Change α) : Except PathError α × Tree :=
  (change.result, { tree with root := change.tree })

/-- What a path text addresses. -/
def get (tree : Tree) (text : String) : Except PathError (Option Node) := do
  tree.root.read (← tree.parse text)

/-- What a path text addresses, or a default. -/
def getOr (tree : Tree) (text : String) (default : Node) : Except PathError Node := do
  return (← tree.get text).getD default

/-- A path text addresses a value that is not null. -/
def contains (tree : Tree) (text : String) : Except PathError Bool := do
  return (← tree.get text).any (!·.isNull)

/-- Stores a value; the empty path replaces the root. -/
def set (tree : Tree) (text : String) (value : Node) : Except PathError Node × Tree :=
  match tree.parse text with
  | .ok path => tree.afterChange (tree.root.writeAt path value)
  | .error e => (.error e, tree)

/-- Removes what a path text addresses. -/
def delete (tree : Tree) (text : String) : Except PathError (Option Node) × Tree :=
  match tree.parse text with
  | .ok path => tree.afterChange (tree.root.deleteAt path)
  | .error e => (.error e, tree)

/-- Puts another root in place and gives the old one. -/
def replaceRoot (tree : Tree) (root : Node) : Node × Tree := (tree.root, { tree with root })

/-- The number of entries or items of the root. -/
def length (tree : Tree) : Nat := tree.root.length

/-- The root is an empty container or null. -/
def isEmpty (tree : Tree) : Bool := tree.root.isEmpty

end Tree

end TreePath

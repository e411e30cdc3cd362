import TreePath.Yaml.Resolution
import TreePath.Yaml.Tree

/-!
# Reading YAML

The tree of a document becomes a value when its aliases are replaced by the nodes that they name and
its scalars are resolved.  Containers may be nested at most `nestingLimit` deep, which also ends the
reading of a node that contains itself, and the number of aliases that are followed is bounded by the
size of the document.

An anchor is known by the number of other names that were anchored before it, and an alias means the
last node with the number that its name had when the alias was read.
-/

set_option autoImplicit false

namespace TreePath

namespace Yaml

/-- The deepest nesting of sequences and mappings that is read. -/
def nestingLimit : Nat := 128

/-- A node whose aliases are numbers. -/
abbrev NumberedTree := Tree Nat

/-- The anchors of a document while it is read. -/
structure Anchors where
  /-- the number of each name -/
  names : List (String × Nat)
  /-- the anchored nodes, each with its number and its place in the document -/
  nodes : List (Nat × Nat × NumberedTree)
  /-- the number of places so far; a container takes one for its start and one for its end -/
  places : Nat

namespace Anchors

/-- Gives a name its number. -/
def register (anchors : Anchors) (name : Option String) : Anchors × Option Nat :=
  match name with
  | none => (anchors, none)
  | some name =>
    let number := anchors.names.length
    ({ anchors with names := (name, number) :: anchors.names.filter (·.1 != name) }, some number)

/-- Takes the next place. -/
def place (anchors : Anchors) : Anchors × Nat := ({ anchors with places := anchors.places + 1 }, anchors.places)

/-- Keeps an anchored node. -/
def keep (anchors : Anchors) (number : Option Nat) (place : Nat) (tree : NumberedTree) : Anchors :=
  match number with
  | some number => { anchors with nodes := (number, place, tree) :: anchors.nodes }
  | none => anchors

/-- The last node with a number. -/
def find? (anchors : Anchors) (number : Nat) : Option NumberedTree :=
  let candidates := anchors.nodes.filter (·.1 == number)
  (candidates.foldl (fun best node =>
    match best with
    | some (place, _) => if place < node.2.1 then some node.2 else best
    | none => some node.2) none).map (·.2)

end Anchors

mutual

/-- Numbers the aliases of a tree; an alias of a name that has no anchor yet is an error. -/
def numberAliases (tree : NamedTree) (anchors : Anchors) : Option (NumberedTree × Anchors) :=
  match tree with
  | .alias name => do
    let number ← anchors.names.lookup name
    return (.alias number, anchors.place.1)
  | .scalar properties plain text =>
    let (anchors, number) := anchors.register properties.anchor
    let (anchors, place) := anchors.place
    let tree := .scalar properties plain text
    some (tree, anchors.keep number place tree)
  | .sequence properties items => do
    let (anchors, number) := anchors.register properties.anchor
    let (anchors, place) := anchors.place
    let (items, anchors) ← numberItems items anchors
    let tree := .sequence properties items
    return (tree, (anchors.keep number place tree).place.1)
  | .mapping properties entries => do
    let (anchors, number) := anchors.register properties.anchor
    let (anchors, place) := anchors.place
    let (entries, anchors) ← numberEntries entries anchors
    let tree := .mapping properties entries
    return (tree, (anchors.keep number place tree).place.1)

/-- Numbers the aliases of the items of a sequence. -/
def numberItems : List NamedTree → Anchors → Option (List NumberedTree × Anchors)
  | [], anchors => some ([], anchors)
  | item :: rest, anchors => do
    let (item, anchors) ← numberAliases item anchors
    let (rest, anchors) ← numberItems rest anchors
    return (item :: rest, anchors)

/-- Numbers the aliases of the entries of a mapping. -/
def numberEntries : List (NamedTree × NamedTree) → Anchors → Option (List (NumberedTree × NumberedTree) × Anchors)
  | [], anchors => some ([], anchors)
  | (key, value) :: rest, anchors => do
    let (key, anchors) ← numberAliases key anchors
    let (value, anchors) ← numberAliases value anchors
    let (rest, anchors) ← numberEntries rest anchors
    return ((key, value) :: rest, anchors)

end

/-- The value of a container with its tag, if it is one that is kept. -/
def withTag (tag : Option String) (value : Value) : Value :=
  match tag with
  | some tag => if tag.toList.head? == some '!' then .tagged tag value else value
  | none => value

/-- Follows an alias, counting it against the number of aliases that may still be followed. -/
def follow (anchors : Anchors) (tree : NumberedTree) : StateT Nat Option NumberedTree :=
  match tree with
  | .alias number => do
    match ← get with
    | 0 => failure
    | left + 1 =>
      set left
      match anchors.find? number with
      | some tree => return tree
      | none => failure
  | tree => return tree

/-- The value of a node whose containers are nested at most `depth` deep. -/
def compose (anchors : Anchors) (depth : Nat) (tree : NumberedTree) : StateT Nat Option Value := do
  match ← follow anchors tree with
  | .scalar properties plain text =>
    match scalarValue? properties.tag plain text with
    | some value => return value
    | none => failure
  | .sequence properties items =>
    match depth with
    | 0 => failure
    | depth + 1 =>
      let items ← items.mapM (compose anchors depth)
      return withTag properties.tag (.sequence items)
  | .mapping properties entries =>
    match depth with
    | 0 => failure
    | depth + 1 =>
      let entries ← entries.mapM fun (key, value) => do
        return (← compose anchors depth key, ← compose anchors depth value)
      return withTag properties.tag (.mapping entries)
  | .alias _ => failure

/-- The value of the tree of a document. -/
def valueOf? (tree : NamedTree) : Option Value := do
  let (tree, anchors) ← numberAliases tree ⟨[], [], 0⟩
  let (value, _) ← (compose anchors nestingLimit tree).run (anchors.places * 100)
  return value

/-- Reads a YAML text; a text without a document is null. -/
def read? (text : String) : Option Value := do
  match ← document? (← tokens? text.toList) with
  | some tree => valueOf? tree
  | none => return .null

/-! ## Repeated keys -/

namespace Value

/-- Equality of numbers as keys, where a NaN equals a NaN. -/
def sameNumber : Numeral → Numeral → Bool
  | .integer i, .integer j => i == j
  | .float x, .float y => (x.isNaN && y.isNaN) || x.equal y
  | _, _ => false

/-- The name of a tag without its exclamation mark. -/
def tagName (tag : String) : List Char :=
  match tag.toList with
  | '!' :: c :: rest => c :: rest
  | name => name

mutual

/-- Equality of values as keys; mappings compare as finite maps. -/
def same : Value → Value → Bool
  | null, null => true
  | boolean a, boolean b => a == b
  | number m, number n => sameNumber m n
  | string s, string t => s == t
  | sequence items, sequence others => sameItems items others
  | mapping entries, mapping others => entries.length == others.length && sameEntries entries others
  | tagged tag value, tagged tag' value' => tagName tag == tagName tag' && same value value'
  | _, _ => false

/-- The items are equal one by one. -/
def sameItems : List Value → List Value → Bool
  | [], [] => true
  | item :: rest, other :: others => same item other && sameItems rest others
  | _, _ => false

/-- Each entry is among the others. -/
def sameEntries : List (Value × Value) → List (Value × Value) → Bool
  | [], _ => true
  | (key, value) :: rest, others =>
    others.any (fun other => same key other.1 && same value other.2) && sameEntries rest others

end

mutual

/-- No mapping inside repeats a key. -/
def hasDistinctKeys : Value → Bool
  | sequence items => itemsHaveDistinctKeys items
  | mapping entries => entriesHaveDistinctKeys entries
  | tagged _ value => hasDistinctKeys value
  | _ => true

/-- No mapping inside the items repeats a key. -/
def itemsHaveDistinctKeys : List Value → Bool
  | [] => true
  | item :: rest => hasDistinctKeys item && itemsHaveDistinctKeys rest

/-- The keys differ from each other, and no mapping inside the keys and values repeats a key. -/
def entriesHaveDistinctKeys : List (Value × Value) → Bool
  | [] => true
  | (key, value) :: rest =>
    hasDistinctKeys key && hasDistinctKeys value && !rest.any (fun other => same key other.1) &&
      entriesHaveDistinctKeys rest

end

end Value

end Yaml

end TreePath

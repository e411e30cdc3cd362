import TreePath.Document
import TreePath.Proofs.Entries

/-!
# Fitting JSON to the shapes of a tree

Content is fitted to the first shape of a tree that takes it, in a fixed order
(`ofContent?_eq_findSome?`), at every level anew.  Of the content that JSON delivers just the integers
fit more than one shape, because a float takes an integer as well, and the order gives them to the
integers while they are machine integers.

So the fit of a JSON value never fails and is the tree that loading makes of it
(`ofContent?_ofJson`).
-/

set_option autoImplicit false

namespace TreePath

/-- What content can be fitted to. -/
inductive Variant where
  | mapping
  | sequence
  | null
  | boolean
  | integer
  | float
  | string
  deriving DecidableEq, Repr

namespace Variant

/-- The order in which the variants are tried. -/
def order : List Variant := [mapping, sequence, null, boolean, integer, float, string]

/-- Fits content to one variant; the parts of a container are fitted to whatever takes them. -/
def fit? : Variant → Content → Option Node
  | mapping, .map entries =>
    (Node.entriesOfContent? entries).map fun entries => .mapping (Entries.ofList entries)
  | sequence, .list items => (Node.itemsOfContent? items).map .sequence
  | null, content => content.null?.map .scalar
  | boolean, content => content.boolean?.map .scalar
  | integer, content => content.integer?.map .scalar
  | float, content => content.float?.map .scalar
  | string, content => content.string?.map .scalar
  | _, _ => none

end Variant

namespace Content

/-- A list fits no leaf. -/
theorem scalar?_list (items : List Content) : (list items).scalar? = none := rfl

/-- A map fits no leaf. -/
theorem scalar?_map (entries : List (Content × Content)) : (map entries).scalar? = none := rfl

/-- A number is fitted to an integer when it is a machine integer, and else to a float. -/
theorem scalar?_number (n : Numeral) : (number n).scalar? = some (.number n.toNumber) := by
  cases n with
  | integer i =>
    simp only [scalar?, integer?, Numeral.toNumber]
    cases word? i <;> rfl
  | float x => rfl

end Content

namespace Node

/-- The variants of leaves, in their order, take what fits a leaf. -/
theorem findSome?_leaves (content : Content) :
    [Variant.null, .boolean, .integer, .float, .string].findSome? (·.fit? content) =
      content.scalar?.map scalar := by
  simp only [Content.scalar?, Option.orElse_eq_orElse, Option.orElse_eq_or, Option.map_or,
    List.findSome?, Variant.fit?]
  cases content.null? <;> cases content.boolean? <;> cases content.integer? <;>
    cases content.float? <;> cases content.string? <;> rfl

/-- A number is fitted to a leaf, since it is neither a map nor a list. -/
theorem ofContent?_number (n : Numeral) :
    ofContent? (.number n) = (Content.number n).scalar?.map scalar := by
  rw [ofContent?]
  · cases (Content.number n).scalar? <;> rfl
  · simp
  · simp

/-- Content is fitted to the first variant that takes it. -/
theorem ofContent?_eq_findSome? (content : Content) :
    ofContent? content = Variant.order.findSome? (·.fit? content) := by
  cases content with
  | null => rfl
  | boolean b => rfl
  | string s => rfl
  | number n =>
    rw [ofContent?_number]
    exact (findSome?_leaves (.number n)).symm
  | list items =>
    rw [ofContent?, Variant.order, List.findSome?_cons, List.findSome?_cons, findSome?_leaves]
    cases hitems : itemsOfContent? items <;> simp [Variant.fit?, hitems, Content.scalar?_list]
  | map entries =>
    rw [ofContent?, Variant.order, List.findSome?_cons, List.findSome?_cons, findSome?_leaves]
    cases hentries : entriesOfContent? entries <;>
      simp [Variant.fit?, hentries, Content.scalar?_map]

/-! ## The content of JSON -/

mutual

/-- The content of a JSON value is fitted to the tree of the value.  The three inductions go through the
value, its items and its members together. -/
theorem ofContent?_ofJson (value : Json.Value) :
    ofContent? (Content.ofJson value) = some (ofJson value) := by
  cases value with
  | null => rfl
  | boolean b => rfl
  | string s => rfl
  | number n =>
    rw [Content.ofJson, ofContent?_number, Content.scalar?_number, ofJson]
    rfl
  | array items =>
    rw [Content.ofJson, ofContent?, itemsOfContent?_itemsOfJson items, ofJson]
    rfl
  | object members =>
    rw [Content.ofJson, ofContent?, entriesOfContent?_entriesOfJson members, ofJson]
    rfl

/-- The items of an array are fitted to the trees of its values, in their order. -/
theorem itemsOfContent?_itemsOfJson (items : List Json.Value) :
    itemsOfContent? (Content.itemsOfJson items) = some (itemsOfJson items) := by
  cases items with
  | nil => rfl
  | cons item rest =>
    rw [Content.itemsOfJson, itemsOfContent?, ofContent?_ofJson item,
      itemsOfContent?_itemsOfJson rest, itemsOfJson]
    rfl

/-- The members of an object are fitted to the trees of their values under the same keys, repeated
keys included. -/
theorem entriesOfContent?_entriesOfJson (members : List (String × Json.Value)) :
    entriesOfContent? (Content.entriesOfJson members) = some (entriesOfJson members) := by
  cases members with
  | nil => rfl
  | cons member rest =>
    obtain ⟨key, value⟩ := member
    rw [Content.entriesOfJson, entriesOfContent?, ofContent?_ofJson value,
      entriesOfContent?_entriesOfJson rest, entriesOfJson]
    rfl

end

end Node

namespace Format

/-- **A JSON text is fitted as it is loaded.**  Fitting it to the shapes of a tree, the first that takes
the content at each level in the order mapping, sequence, null, boolean, integer, float, string, fails
when loading fails, and else gives the same tree.  In both a repeated member keeps its first place and
its last value. -/
theorem json_fits_as_it_loads (text : String) :
    (fit? .json text = none ↔ load .json text = .error .json) ∧
      (∀ node, fit? .json text = some node ↔ load .json text = .ok node) ∧
      (∀ content, Node.ofContent? content = Variant.order.findSome? (·.fit? content)) ∧
      ∀ members, ∃ entries,
        Node.ofContent? (Content.ofJson (.object members)) = some (.mapping entries) ∧
          Entries.Merges (Node.entriesOfJson members) entries := by
  refine ⟨?_, ?_, Node.ofContent?_eq_findSome?, ?_⟩
  · unfold fit? load
    cases Json.read? text with
    | none => simp
    | some value => simp [Node.ofContent?_ofJson]
  · intro node
    unfold fit? load
    cases Json.read? text with
    | none => simp
    | some value => simp [Node.ofContent?_ofJson]
  · intro members
    refine ⟨Entries.ofList (Node.entriesOfJson members), ?_, Entries.merges_iff.mpr rfl⟩
    rw [Node.ofContent?_ofJson, Node.ofJson]

example : Node.ofContent? (Content.ofJson
    (.object [("a", .number (.integer 1)), ("b", .null), ("a", .boolean true)])) =
    some (.mapping [("a", .ofBool true), ("b", .null)]) := by
  rfl

end Format

end TreePath

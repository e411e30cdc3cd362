import TreePath.Json.Value
import TreePath.Proofs.WellFormed

/-!
# Trees and JSON values

On the way to its JSON value and back a tree loses just its floats that are not finite, which become
null (`ofJson_toJson_eq_mapLeaves`): JSON has an integer for every machine word, and distinct keys
stay as they are.  So a tree without floats is the tree of its JSON value (`ofJson_toJson`).

The nesting of a tree is measured by `depth`, which counts the containers on the deepest way down.
-/

set_option autoImplicit false

namespace TreePath

/-- A list is its own image when its elements are. -/
theorem map_eq_self_iff {α : Type} {f : α → α} {l : List α} :
    l.map f = l ↔ ∀ a ∈ l, f a = a := by
  have h := List.map_inj_left (l := l) (f := f) (g := id)
  rwa [List.map_id] at h

namespace Scalar

/-- What JSON keeps of a leaf: a float that is not finite becomes null. -/
def inJson : Scalar → Scalar
  | number (.float x) => if x.isFinite then number (.float x) else null
  | value => value

/-- JSON has a place for every leaf but the floats that are not finite. -/
theorem inJson_eq_self_iff {value : Scalar} :
    value.inJson = value ↔ ∀ x, value = number (.float x) → x.isFinite := by
  cases value with
  | null => simp [inJson]
  | boolean b => simp [inJson]
  | string s => simp [inJson]
  | number n =>
    cases n with
    | integer i => simp [inJson]
    | float x => simp [inJson]

end Scalar

namespace Node

variable {entries : List (String × Node)} {items : List Node}

/-! ## Depth -/

mutual

/-- The number of containers on the deepest way down into a tree. -/
def depth : Node → Nat
  | mapping entries => depthOfEntries entries + 1
  | sequence items => depthOfItems items + 1
  | scalar _ => 0

/-- The depth of the deepest value of the entries. -/
def depthOfEntries : List (String × Node) → Nat
  | [] => 0
  | (_, value) :: rest => max (depth value) (depthOfEntries rest)

/-- The depth of the deepest item. -/
def depthOfItems : List Node → Nat
  | [] => 0
  | item :: rest => max (depth item) (depthOfItems rest)

end

/-- A leaf has no containers in it. -/
@[simp] theorem depth_scalar (value : Scalar) : (scalar value).depth = 0 := by rw [depth]

/-! ## Trees without floats -/

/-- No leaf of the tree is a float. -/
def FloatFree (root : Node) : Prop :=
  ∀ address node, root.subtree? address = some node → ∀ x, node ≠ ofFloat x

/-- A mapping is without floats when the values of its entries are. -/
@[simp] theorem floatFree_mapping :
    (mapping entries).FloatFree ↔ ∀ entry ∈ entries, entry.2.FloatFree := by
  rw [FloatFree, forall_subtree?_iff, forall_child?_mapping]
  exact and_iff_right fun x h => by cases h

/-- A sequence is without floats when its items are. -/
@[simp] theorem floatFree_sequence :
    (sequence items).FloatFree ↔ ∀ item ∈ items, item.FloatFree := by
  rw [FloatFree, forall_subtree?_iff, forall_child?_sequence]
  exact and_iff_right fun x h => by cases h

/-- A leaf is without floats when it is none. -/
@[simp] theorem floatFree_scalar (value : Scalar) :
    (scalar value).FloatFree ↔ ∀ x, value ≠ .number (.float x) := by
  rw [FloatFree, forall_subtree?_iff]
  constructor
  · rintro ⟨hleaf, -⟩ x rfl
    exact hleaf x rfl
  · intro h
    refine ⟨?_, fun position child hchild => by simp [child?] at hchild⟩
    intro x heq
    exact h x (Node.scalar.inj heq)

/-! ## Leaves one by one -/

mutual

/-- The tree with every leaf changed and nothing else. -/
def mapLeaves (f : Scalar → Scalar) : Node → Node
  | mapping entries => mapping (entriesMapLeaves f entries)
  | sequence items => sequence (itemsMapLeaves f items)
  | scalar value => scalar (f value)

/-- The entries with every leaf of their values changed. -/
def entriesMapLeaves (f : Scalar → Scalar) : List (String × Node) → List (String × Node)
  | [] => []
  | (key, value) :: rest => (key, mapLeaves f value) :: entriesMapLeaves f rest

/-- The items with every leaf changed. -/
def itemsMapLeaves (f : Scalar → Scalar) : List Node → List Node
  | [] => []
  | item :: rest => mapLeaves f item :: itemsMapLeaves f rest

end

/-- The leaves of a mapping are changed in the values of its entries, and the keys stay. -/
theorem mapLeaves_mapping (f : Scalar → Scalar) (entries : List (String × Node)) :
    (mapping entries).mapLeaves f =
      mapping (entries.map fun entry => (entry.1, entry.2.mapLeaves f)) := by
  have hentries : entriesMapLeaves f entries =
      entries.map fun entry => (entry.1, entry.2.mapLeaves f) := by
    induction entries with
    | nil => rfl
    | cons entry rest ih => rw [entriesMapLeaves, ih, List.map_cons]
  rw [mapLeaves, hentries]

/-- The leaves of a sequence are changed in its items. -/
theorem mapLeaves_sequence (f : Scalar → Scalar) (items : List Node) :
    (sequence items).mapLeaves f = sequence (items.map (mapLeaves f)) := by
  have hitems : itemsMapLeaves f items = items.map (mapLeaves f) := by
    induction items with
    | nil => rfl
    | cons item rest ih => rw [itemsMapLeaves, ih, List.map_cons]
  rw [mapLeaves, hitems]

/-- A change of the leaves keeps a tree just when it keeps each leaf in it. -/
theorem mapLeaves_eq_self_iff {f : Scalar → Scalar} {node : Node} :
    node.mapLeaves f = node ↔ ∀ value, node.Holds value → f value = value := by
  induction node using induction_on_values with
  | mapping entries ih =>
    rw [mapLeaves_mapping, mapping.injEq, map_eq_self_iff]
    constructor
    · intro h value hholds
      obtain ⟨entry, hentry, hvalue⟩ := holds_mapping.mp hholds
      exact (ih entry hentry).mp (congrArg Prod.snd (h entry hentry)) value hvalue
    · intro h entry hentry
      refine Prod.ext rfl ((ih entry hentry).mpr fun value hvalue => ?_)
      exact h value (holds_mapping.mpr ⟨entry, hentry, hvalue⟩)
  | sequence items ih =>
    rw [mapLeaves_sequence, sequence.injEq, map_eq_self_iff]
    constructor
    · intro h value hholds
      obtain ⟨item, hitem, hvalue⟩ := holds_sequence.mp hholds
      exact (ih item hitem).mp (h item hitem) value hvalue
    · intro h item hitem
      refine (ih item hitem).mpr fun value hvalue => ?_
      exact h value (holds_sequence.mpr ⟨item, hitem, hvalue⟩)
  | scalar value =>
    rw [mapLeaves, scalar.injEq]
    simp only [holds_scalar, forall_eq']

/-! ## There and back -/

/-- The entries of a mapping become members one by one. -/
theorem entriesToJson_eq_map (entries : List (String × Node)) :
    entriesToJson entries = entries.map fun entry => (entry.1, entry.2.toJson) := by
  induction entries with
  | nil => rfl
  | cons entry rest ih => rw [entriesToJson, ih, List.map_cons]

/-- The items of a sequence become values one by one. -/
theorem itemsToJson_eq_map (items : List Node) : itemsToJson items = items.map toJson := by
  induction items with
  | nil => rfl
  | cons item rest ih => rw [itemsToJson, ih, List.map_cons]

/-- The members of an object become pairs one by one, repeated keys included. -/
theorem entriesOfJson_eq_map (members : List (String × Json.Value)) :
    entriesOfJson members = members.map fun member => (member.1, ofJson member.2) := by
  induction members with
  | nil => rfl
  | cons member rest ih => rw [entriesOfJson, ih, List.map_cons]

/-- The values of an array become items one by one. -/
theorem itemsOfJson_eq_map (values : List Json.Value) : itemsOfJson values = values.map ofJson := by
  induction values with
  | nil => rfl
  | cons value rest ih => rw [itemsOfJson, ih, List.map_cons]

/-- A leaf that goes through JSON is what JSON has in its place. -/
theorem ofJson_toJson_scalar (value : Scalar) :
    ofJson (scalar value).toJson = scalar value.inJson := by
  cases value with
  | null => rfl
  | boolean b => rfl
  | string s => rfl
  | number n =>
    cases n with
    | integer i =>
      rw [toJson, ofJson, Numeral.toNumber_toInt]
      rfl
    | float x =>
      rw [toJson, Scalar.inJson]
      split <;> rfl

/-- **The tree of the JSON value of a tree is the tree without its floats that are not finite.** -/
theorem ofJson_toJson_eq_mapLeaves {node : Node} (hdistinct : node.Distinct) :
    ofJson node.toJson = node.mapLeaves Scalar.inJson := by
  induction node using induction_on_values with
  | mapping entries ih =>
    obtain ⟨hkeys, hvalues⟩ := (distinct_mapping entries).mp hdistinct
    have hback : (entries.map fun entry => (entry.1, ofJson entry.2.toJson)) =
        entries.map fun entry => (entry.1, entry.2.mapLeaves Scalar.inJson) := by
      apply List.map_congr_left
      intro entry hentry
      rw [ih entry hentry (hvalues entry hentry)]
    rw [toJson, ofJson, entriesToJson_eq_map, entriesOfJson_eq_map, List.map_map, mapLeaves_mapping,
      ← hback]
    have hmapped := hkeys.map_values fun value => ofJson value.toJson
    exact congrArg mapping (Entries.ofList_of_distinct hmapped)
  | sequence items ih =>
    rw [toJson, ofJson, itemsToJson_eq_map, itemsOfJson_eq_map, List.map_map, mapLeaves_sequence]
    refine congrArg sequence (List.map_congr_left fun item hitem => ?_)
    exact ih item hitem ((distinct_sequence items).mp hdistinct item hitem)
  | scalar value => rw [ofJson_toJson_scalar, mapLeaves]

/-- A tree is the tree of its JSON value just when all its floats are finite. -/
theorem ofJson_toJson_eq_self_iff {node : Node} (hdistinct : node.Distinct) :
    ofJson node.toJson = node ↔ ∀ x, node.Holds (.number (.float x)) → x.isFinite := by
  rw [ofJson_toJson_eq_mapLeaves hdistinct, mapLeaves_eq_self_iff]
  constructor
  · intro h x hholds
    exact Scalar.inJson_eq_self_iff.mp (h _ hholds) x rfl
  · rintro h value hholds
    refine Scalar.inJson_eq_self_iff.mpr ?_
    rintro x rfl
    exact h x hholds

/-- A tree without floats is the tree of its JSON value. -/
theorem ofJson_toJson {node : Node} (hdistinct : node.Distinct) (hfloat : node.FloatFree) :
    ofJson node.toJson = node := by
  refine (ofJson_toJson_eq_self_iff hdistinct).mpr ?_
  rintro x ⟨address, h⟩
  exact absurd rfl (hfloat address _ h x)

/-! ## Trees of any depth -/

/-- Sequences around a null leaf, one in another. -/
def nested : Nat → Node
  | 0 => null
  | n + 1 => sequence [nested n]

/-- A tree of nested brackets is as deep as there are brackets. -/
theorem depth_nested (n : Nat) : (nested n).depth = n := by
  induction n with
  | zero => rfl
  | succ n ih => rw [nested, depth, depthOfItems, depthOfItems, ih, Nat.max_zero]

/-- There is no key in nested brackets. -/
theorem nested_distinct (n : Nat) : (nested n).Distinct := by
  induction n with
  | zero => exact distinct_scalar .null
  | succ n ih => simpa [nested] using ih

/-- There is no float in nested brackets. -/
theorem nested_floatFree (n : Nat) : (nested n).FloatFree := by
  induction n with
  | zero => simp [nested, null]
  | succ n ih => simpa [nested] using ih

end Node

end TreePath

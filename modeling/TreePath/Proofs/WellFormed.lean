import TreePath.Proofs.Address
import TreePath.Proofs.Entries
import TreePath.Word

/-!
# Well-formed trees

The nodes of the library are plain data, and two facts about every tree that a program can hold are
predicates beside them.  Every container has a length that is the value of a word (`Sized`), and
every mapping has distinct keys (`Distinct`).  A tree with both is well formed, and so is every node
in it (`WellFormed.subtree?`).

Most laws of paths hold of every tree.  The first fact is needed where the word arithmetic of slices
is involved, the second where keys are removed one after another.
-/

set_option autoImplicit false

namespace TreePath

namespace Node

variable {root target : Node} {address : Address}

/-! ## Trees that fit a machine -/

/-- Every container of the tree has a length that is the value of a word. -/
def Sized (root : Node) : Prop :=
  ∀ address node, root.subtree? address = some node → FitsWord node.length

/-- The root itself has a length that fits a word. -/
theorem Sized.fitsWord_length (h : root.Sized) : FitsWord root.length := h [] root rfl

/-- What is within a tree of sizes that fit has such sizes. -/
theorem Sized.subtree? (h : root.Sized) (htarget : root.subtree? address = some target) :
    target.Sized := by
  intro place node hnode
  exact h (address ++ place) node (by rw [subtree?_append htarget, hnode])

/-- A tree fits when its root is short enough and every child fits. -/
theorem sized_iff (root : Node) :
    root.Sized ↔ FitsWord root.length ∧
      ∀ position child, root.child? position = some child → child.Sized :=
  forall_subtree?_iff root

/-- A mapping has sizes that fit when its own length fits and its values have such sizes. -/
@[simp] theorem sized_mapping (entries : List (String × Node)) :
    (mapping entries).Sized ↔ FitsWord entries.length ∧ ∀ entry ∈ entries, entry.2.Sized := by
  rw [sized_iff, forall_child?_mapping]
  rfl

/-- A sequence has sizes that fit when its own length fits and its items have such sizes. -/
@[simp] theorem sized_sequence (items : List Node) :
    (sequence items).Sized ↔ FitsWord items.length ∧ ∀ item ∈ items, item.Sized := by
  rw [sized_iff, forall_child?_sequence]
  rfl

/-- A leaf fits. -/
@[simp] theorem sized_scalar (value : Scalar) : (scalar value).Sized := by
  rw [sized_iff]
  refine ⟨by simp [length], ?_⟩
  intro position child h
  simp [child?] at h

/-! ## Distinct keys -/

/-- The values of entries have different names throughout when each of them does. -/
theorem distinctEntries_iff {entries : List (String × Node)} :
    distinctEntries entries ↔ ∀ entry ∈ entries, entry.2.Distinct := by
  induction entries with
  | nil => simp [distinctEntries]
  | cons entry rest ih => simp [distinctEntries, ih]

/-- Items have different names throughout when each of them does. -/
theorem distinctItems_iff {items : List Node} :
    distinctItems items ↔ ∀ item ∈ items, item.Distinct := by
  induction items with
  | nil => simp [distinctItems]
  | cons item rest ih => simp [distinctItems, ih]

/-- A mapping has different names throughout when its own names differ and those within its values do.
-/
@[simp] theorem distinct_mapping (entries : List (String × Node)) :
    (mapping entries).Distinct ↔
      Entries.Distinct entries ∧ ∀ entry ∈ entries, entry.2.Distinct := by
  rw [Distinct, distinctEntries_iff]

/-- A sequence has different names throughout when its items do. -/
@[simp] theorem distinct_sequence (items : List Node) :
    (sequence items).Distinct ↔ ∀ item ∈ items, item.Distinct := by
  rw [Distinct, distinctItems_iff]

/-- A scalar has no names. -/
@[simp] theorem distinct_scalar (value : Scalar) : (scalar value).Distinct := by
  rw [Distinct]
  trivial

/-- The children of a tree with distinct keys have distinct keys. -/
theorem Distinct.child? {node child : Node} {position : Nat} (h : node.Distinct)
    (hchild : node.child? position = some child) : child.Distinct := by
  cases node with
  | mapping entries =>
    simp only [Node.child?, Option.map_eq_some_iff] at hchild
    obtain ⟨entry, hentry, rfl⟩ := hchild
    exact ((distinct_mapping entries).mp h).2 entry (List.mem_of_getElem? hentry)
  | sequence items => exact (distinct_sequence items).mp h child (List.mem_of_getElem? hchild)
  | scalar value => simp [Node.child?] at hchild

/-- The value under a name of such a mapping has different names throughout. -/
theorem Distinct.get? {entries : Entries Node} {name : String} {node : Node}
    (h : (mapping entries).Distinct) (hfound : Entries.get? entries name = some node) :
    node.Distinct :=
  ((distinct_mapping entries).mp h).2 _ (Entries.mem_of_get? hfound)

/-- A node has distinct keys when its own are distinct and its children have distinct keys. -/
theorem distinct_iff (node : Node) :
    node.Distinct ↔ (∀ keys, node.keys? = some keys → keys.Nodup) ∧
      ∀ position child, node.child? position = some child → child.Distinct := by
  constructor
  · intro h
    refine ⟨?_, fun position child => h.child?⟩
    intro keys hkeys
    cases node with
    | mapping entries =>
      cases hkeys
      exact ((distinct_mapping entries).mp h).1
    | sequence items => cases hkeys
    | scalar value => cases hkeys
  · rintro ⟨hkeys, hchildren⟩
    cases node with
    | mapping entries =>
      refine (distinct_mapping entries).mpr ⟨hkeys _ rfl, ?_⟩
      intro entry hentry
      obtain ⟨position, hposition⟩ := List.getElem?_of_mem hentry
      exact hchildren position entry.2 (by simp [Node.child?, hposition])
    | sequence items =>
      refine (distinct_sequence items).mpr ?_
      intro item hitem
      obtain ⟨position, hposition⟩ := List.getElem?_of_mem hitem
      exact hchildren position item hposition
    | scalar value => exact distinct_scalar value

/-- A node with another child has distinct keys when the child has. -/
theorem Distinct.setChild {node new : Node} (h : node.Distinct) (hnew : new.Distinct)
    (position : Nat) : (node.setChild position new).Distinct := by
  obtain ⟨hkeys, hchildren⟩ := (distinct_iff node).mp h
  refine (distinct_iff _).mpr ⟨by rwa [keys?_setChild], ?_⟩
  intro place child hchild
  by_cases hplace : position = place
  · subst hplace
    cases hold : node.child? position with
    | none =>
      rw [setChild_of_child?_none new hold, hold] at hchild
      cases hchild
    | some old =>
      rw [child?_setChild_self new hold] at hchild
      cases hchild
      exact hnew
  · rw [child?_setChild_of_ne new hplace] at hchild
    exact hchildren place child hchild

/-- Every node of a tree with distinct keys is the root of one. -/
theorem Distinct.subtree? (h : root.Distinct) (htarget : root.subtree? address = some target) :
    target.Distinct := by
  induction address generalizing root with
  | nil =>
    cases htarget
    exact h
  | cons position rest ih =>
    obtain ⟨child, hchild, hrest⟩ := exists_child?_of_subtree? htarget
    exact ih (h.child? hchild) hrest

/-- A tree with another node in it has distinct keys when the node has. -/
theorem Distinct.replaceAt {new : Node} (h : root.Distinct) (hnew : new.Distinct)
    (address : Address) : (root.replaceAt address new).Distinct := by
  induction address generalizing root with
  | nil => exact hnew
  | cons position rest ih =>
    cases hchild : root.child? position with
    | none =>
      rw [Node.replaceAt, hchild]
      exact h
    | some child =>
      rw [replaceAt_cons hchild]
      exact h.setChild (ih (h.child? hchild)) position

/-! ## Both -/

/-- A tree that a program can hold. -/
structure WellFormed (root : Node) : Prop where
  sized : root.Sized
  distinct : root.Distinct

/-- What is within a well-formed tree is well-formed. -/
theorem WellFormed.subtree? (h : root.WellFormed) (htarget : root.subtree? address = some target) :
    target.WellFormed :=
  ⟨h.sized.subtree? htarget, h.distinct.subtree? htarget⟩

/-- A sequence of three integers and a mapping of one entry, under two names. -/
def sample : Node :=
  mapping
    [("list", sequence [ofInt64 1, ofInt64 2, ofInt64 3]), ("map", mapping [("on", ofBool true)])]

/-- The sample is a tree that a program can hold. -/
theorem sample_wellFormed : sample.WellFormed := by
  constructor
  · simp [sample, ofInt64, ofBool]
  · simp [sample, ofInt64, ofBool, Entries.Distinct, Entries.keys]

end Node

end TreePath

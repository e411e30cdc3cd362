import TreePath.Node

/-!
# Addresses

An address lists the positions at which one goes down from a node to a place in its tree.
`subtree?` gives the node at an address, and `replaceAt` puts another node there.

The two obey the laws of an array of places.  A replaced place holds the new node
(`subtree?_replaceAt_self`), putting back what is there changes nothing (`replaceAt_subtree?`), a
second replacement hides the first (`replaceAt_replaceAt`), and a place that is neither above nor
below the replaced one keeps its node (`subtree?_replaceAt_of_not_prefix`).  Replacing a child keeps
the shape of its parent, the number of its children and its keys in order, so a replacement leaves
everything but its own place (`agreeOff_replaceAt`).

`Holds` asks whether a leaf of some value stands in a tree, wherever it is.
-/

set_option autoImplicit false

namespace TreePath

/-- A place in a tree: the positions of the children on the way down to it. -/
abbrev Address := List Nat

namespace Node

/-! ## Children -/

/-- What holds of a node as soon as it holds of its values or items holds of every node. -/
@[elab_as_elim] theorem induction_on_values {motive : Node → Prop}
    (mapping : ∀ entries, (∀ entry ∈ entries, motive entry.2) → motive (mapping entries))
    (sequence : ∀ items, (∀ item ∈ items, motive item) → motive (sequence items))
    (scalar : ∀ value, motive (scalar value)) (node : Node) : motive node := by
  match node with
  | .mapping entries =>
    refine mapping entries fun entry hentry => ?_
    have hsize := List.sizeOf_lt_of_mem hentry
    exact induction_on_values mapping sequence scalar entry.2
  | .sequence items =>
    exact sequence items fun item hitem => induction_on_values mapping sequence scalar item
  | .scalar value => exact scalar value
termination_by sizeOf node
decreasing_by
  · obtain ⟨key, value⟩ := entry
    simp only [Node.mapping.sizeOf_spec, Prod.mk.sizeOf_spec] at hsize ⊢
    omega
  · have hsize := List.sizeOf_lt_of_mem hitem
    simp only [Node.sequence.sizeOf_spec]
    omega

section Children

variable (node new other : Node) (position : Nat)

/-- A node keeps its shape when a child of it is replaced. -/
@[simp] theorem kind_setChild : (node.setChild position new).kind = node.kind := by
  cases node <;> rfl

/-- A node keeps the number of its children when one of them is replaced. -/
@[simp] theorem length_setChild : (node.setChild position new).length = node.length := by
  cases node <;> simp [setChild, length]

/-- The parent of a replaced child keeps its keys in order. -/
@[simp] theorem keys?_setChild : (node.setChild position new).keys? = node.keys? := by
  cases node with
  | mapping entries =>
    have hkeys : (entries.modify position fun entry => (entry.1, new)).map (·.1) =
        entries.map (·.1) := by
      apply List.ext_getElem?
      intro i
      rw [List.getElem?_map, List.getElem?_map, List.getElem?_modify]
      cases entries[i]? with
      | none => rfl
      | some entry => by_cases h : position = i <;> simp [h]
    simp only [setChild, keys?, Entries.keys, hkeys]
  | sequence items => rfl
  | scalar value => rfl

/-- The second of two replacements of a child hides the first. -/
@[simp] theorem setChild_setChild :
    (node.setChild position new).setChild position other = node.setChild position other := by
  cases node with
  | mapping entries =>
    simp only [setChild, mapping.injEq]
    rw [List.modify_modify_eq]
    rfl
  | sequence items => simp [setChild]
  | scalar value => rfl

variable {node position}

/-- A replaced child is the new node. -/
theorem child?_setChild_self {child : Node} (h : node.child? position = some child) :
    (node.setChild position new).child? position = some new := by
  cases node with
  | mapping entries =>
    simp only [child?, Option.map_eq_some_iff] at h
    obtain ⟨entry, hentry, -⟩ := h
    simp [child?, setChild, hentry]
  | sequence items =>
    have hlt : position < items.length := (List.getElem?_eq_some_iff.mp h).1
    simp [child?, setChild, hlt]
  | scalar value => simp [child?] at h

/-- The other children are the same as before. -/
theorem child?_setChild_of_ne {q : Nat} (h : position ≠ q) :
    (node.setChild position new).child? q = node.child? q := by
  cases node <;> simp [child?, setChild, h]

/-- A child that is put back leaves its parent as it was. -/
theorem setChild_child? {child : Node} (h : node.child? position = some child) :
    node.setChild position child = node := by
  cases node with
  | mapping entries =>
    simp only [child?, Option.map_eq_some_iff] at h
    obtain ⟨⟨key, value⟩, hentry, rfl⟩ := h
    simp only [setChild, mapping.injEq]
    apply List.ext_getElem?
    intro i
    rw [List.getElem?_modify]
    by_cases hi : position = i
    · subst hi
      simp [hentry]
    · simp [hi]
  | sequence items =>
    obtain ⟨hlt, hitem⟩ := List.getElem?_eq_some_iff.mp h
    simp [setChild, ← hitem]
  | scalar value => rfl

/-- Where there is no child none is replaced. -/
theorem setChild_of_child?_none (h : node.child? position = none) :
    node.setChild position new = node := by
  cases node with
  | mapping entries =>
    have hlength : entries.length ≤ position := by simpa [child?] using h
    rw [setChild, List.modify_eq_self hlength]
  | sequence items =>
    have hlength : items.length ≤ position := List.getElem?_eq_none_iff.mp h
    rw [setChild, List.set_eq_of_length_le hlength]
  | scalar value => rfl

/-- Containers have a child at each position below their length. -/
theorem exists_child? (h : position < node.length) :
    ∃ child, node.child? position = some child := by
  cases node with
  | mapping entries => exact ⟨entries[position].2, by simp [child?, List.getElem?_eq_getElem h]⟩
  | sequence items => exact ⟨items[position], List.getElem?_eq_getElem h⟩
  | scalar value => simp [length] at h

/-- What holds of the children of a mapping holds of the values of its entries. -/
theorem forall_child?_mapping {entries : List (String × Node)} {motive : Node → Prop} :
    (∀ position child, (mapping entries).child? position = some child → motive child) ↔
      ∀ entry ∈ entries, motive entry.2 := by
  constructor
  · intro h entry hentry
    obtain ⟨position, hposition⟩ := List.getElem?_of_mem hentry
    exact h position entry.2 (by simp [child?, hposition])
  · intro h position child hchild
    simp only [child?, Option.map_eq_some_iff] at hchild
    obtain ⟨entry, hentry, rfl⟩ := hchild
    exact h entry (List.mem_of_getElem? hentry)

/-- What holds of the children of a sequence holds of its items. -/
theorem forall_child?_sequence {items : List Node} {motive : Node → Prop} :
    (∀ position child, (sequence items).child? position = some child → motive child) ↔
      ∀ item ∈ items, motive item := by
  constructor
  · intro h item hitem
    obtain ⟨position, hposition⟩ := List.getElem?_of_mem hitem
    exact h position item hposition
  · intro h position child hchild
    exact h child (List.mem_of_getElem? hchild)

end Children

/-! ## Places below a node -/

/-- The node at an address, nothing when the address leaves the tree. -/
def subtree? (node : Node) : Address → Option Node
  | [] => some node
  | position :: rest =>
    match node.child? position with
    | some child => child.subtree? rest
    | none => none

/-- Puts another node at an address; an address that leaves the tree changes nothing. -/
def replaceAt (node : Node) : Address → Node → Node
  | [], new => new
  | position :: rest, new =>
    match node.child? position with
    | some child => node.setChild position (child.replaceAt rest new)
    | none => node

/-- The empty address is that of the node itself. -/
@[simp] theorem subtree?_nil (node : Node) : node.subtree? [] = some node := rfl

/-- At the empty address the whole node is replaced. -/
@[simp] theorem replaceAt_nil (node new : Node) : node.replaceAt [] new = new := rfl

/-- An address is followed through the child at its first position. -/
theorem subtree?_cons {node child : Node} {position : Nat} (h : node.child? position = some child)
    (rest : Address) : node.subtree? (position :: rest) = child.subtree? rest := by
  rw [subtree?, h]

/-- A replacement below a child is a replacement of the child. -/
theorem replaceAt_cons {node child : Node} {position : Nat} (h : node.child? position = some child)
    (rest : Address) (new : Node) :
    node.replaceAt (position :: rest) new = node.setChild position (child.replaceAt rest new) := by
  rw [replaceAt, h]

/-- A place below a node is a place below one of its children. -/
theorem exists_child?_of_subtree? {node target : Node} {position : Nat} {rest : Address}
    (h : node.subtree? (position :: rest) = some target) :
    ∃ child, node.child? position = some child ∧ child.subtree? rest = some target := by
  rw [subtree?] at h
  split at h
  next child hchild => exact ⟨child, hchild, h⟩
  next => cases h

/-- What holds of every node of a tree holds of its root and of every node of its children. -/
theorem forall_subtree?_iff {motive : Node → Prop} (root : Node) :
    (∀ address node, root.subtree? address = some node → motive node) ↔
      motive root ∧ ∀ position child, root.child? position = some child →
        ∀ address node, child.subtree? address = some node → motive node := by
  constructor
  · intro h
    refine ⟨h [] root rfl, ?_⟩
    intro position child hchild address node hnode
    exact h (position :: address) node (by rw [subtree?_cons hchild, hnode])
  · rintro ⟨hroot, hchildren⟩ address node h
    cases address with
    | nil =>
      cases h
      exact hroot
    | cons position rest =>
      obtain ⟨child, hchild, hrest⟩ := exists_child?_of_subtree? h
      exact hchildren position child hchild rest node hrest

/-- An address is followed piece by piece. -/
theorem subtree?_append {node middle : Node} {front : Address}
    (h : node.subtree? front = some middle) (back : Address) :
    node.subtree? (front ++ back) = middle.subtree? back := by
  induction front generalizing node with
  | nil =>
    cases h
    rfl
  | cons position rest ih =>
    obtain ⟨child, hchild, hrest⟩ := exists_child?_of_subtree? h
    rw [List.cons_append, subtree?_cons hchild]
    exact ih hrest

/-- The replaced place holds the new node. -/
theorem subtree?_replaceAt_self {node target : Node} {address : Address}
    (h : node.subtree? address = some target) (new : Node) :
    (node.replaceAt address new).subtree? address = some new := by
  induction address generalizing node with
  | nil => rfl
  | cons position rest ih =>
    obtain ⟨child, hchild, hrest⟩ := exists_child?_of_subtree? h
    rw [replaceAt_cons hchild, subtree?_cons (child?_setChild_self _ hchild)]
    exact ih hrest

/-- What is put back at its own place changes nothing. -/
theorem replaceAt_subtree? {node target : Node} {address : Address}
    (h : node.subtree? address = some target) : node.replaceAt address target = node := by
  induction address generalizing node with
  | nil =>
    cases h
    rfl
  | cons position rest ih =>
    obtain ⟨child, hchild, hrest⟩ := exists_child?_of_subtree? h
    rw [replaceAt_cons hchild, ih hrest, setChild_child? hchild]

/-- The second of two replacements at one place hides the first. -/
theorem replaceAt_replaceAt (node new other : Node) (address : Address) :
    (node.replaceAt address new).replaceAt address other = node.replaceAt address other := by
  induction address generalizing node with
  | nil => rfl
  | cons position rest ih =>
    cases hchild : node.child? position with
    | none => simp [replaceAt, hchild]
    | some child =>
      rw [replaceAt_cons hchild, replaceAt_cons (child?_setChild_self _ hchild), ih,
        setChild_setChild, replaceAt_cons hchild]

/-- A place that is neither above nor below the replaced one keeps its node. -/
theorem subtree?_replaceAt_of_not_prefix {node new : Node} {address place : Address}
    (habove : ¬ address <+: place) (hbelow : ¬ place <+: address) :
    (node.replaceAt address new).subtree? place = node.subtree? place := by
  induction address generalizing node place with
  | nil => exact absurd List.nil_prefix habove
  | cons position rest ih =>
    cases place with
    | nil => exact absurd List.nil_prefix hbelow
    | cons q places =>
      cases hchild : node.child? position with
      | none => rw [replaceAt, hchild]
      | some child =>
        rw [replaceAt_cons hchild]
        -- The two places part here or further down.
        by_cases hq : position = q
        · subst hq
          rw [List.cons_prefix_cons] at habove hbelow
          rw [subtree?_cons (child?_setChild_self _ hchild), subtree?_cons hchild]
          exact ih (fun h => habove ⟨rfl, h⟩) (fun h => hbelow ⟨rfl, h⟩)
        · simp only [subtree?, child?_setChild_of_ne _ hq]

/-- Above the replaced place a node has the replacement inside it. -/
theorem subtree?_replaceAt_above {node middle : Node} {front : Address}
    (h : node.subtree? front = some middle) (back : Address) (new : Node) :
    (node.replaceAt (front ++ back) new).subtree? front = some (middle.replaceAt back new) := by
  induction front generalizing node with
  | nil =>
    cases h
    rfl
  | cons position rest ih =>
    obtain ⟨child, hchild, hrest⟩ := exists_child?_of_subtree? h
    rw [List.cons_append, replaceAt_cons hchild, subtree?_cons (child?_setChild_self _ hchild)]
    exact ih hrest

/-! ## Leaves -/

/-- A leaf with this value stands somewhere in the tree. -/
def Holds (root : Node) (value : Scalar) : Prop :=
  ∃ address, root.subtree? address = some (scalar value)

section Leaves

variable {root target : Node} {value other : Scalar} {address : Address}

/-- What stands in a part of a tree stands in the tree. -/
theorem Holds.of_subtree? (h : target.Holds value) (htarget : root.subtree? address = some target) :
    root.Holds value := by
  obtain ⟨place, hplace⟩ := h
  exact ⟨address ++ place, by rw [subtree?_append htarget, hplace]⟩

/-- What stands in a child of a tree stands in the tree. -/
theorem Holds.of_child? {position : Nat} (h : target.Holds value)
    (htarget : root.child? position = some target) : root.Holds value :=
  h.of_subtree? (subtree?_cons htarget [])

/-- A leaf is the root or stands below a child. -/
theorem holds_iff (root : Node) (value : Scalar) :
    root.Holds value ↔ root = scalar value ∨
      ∃ position child, root.child? position = some child ∧ child.Holds value := by
  constructor
  · rintro ⟨address, h⟩
    cases address with
    | nil =>
      cases h
      exact .inl rfl
    | cons position rest =>
      obtain ⟨child, hchild, hrest⟩ := exists_child?_of_subtree? h
      exact .inr ⟨position, child, hchild, rest, hrest⟩
  · rintro (rfl | ⟨position, child, hchild, h⟩)
    · exact ⟨[], rfl⟩
    · exact h.of_child? hchild

/-- A leaf is the only leaf in itself. -/
@[simp] theorem holds_scalar : (scalar other).Holds value ↔ other = value := by
  rw [holds_iff, scalar.injEq]
  refine or_iff_left ?_
  rintro ⟨position, child, hchild, -⟩
  cases hchild

/-- The leaves of a mapping are those of the values of its entries. -/
@[simp] theorem holds_mapping {entries : List (String × Node)} :
    (mapping entries).Holds value ↔ ∃ entry ∈ entries, entry.2.Holds value := by
  rw [holds_iff]
  constructor
  · rintro (heq | ⟨position, child, hchild, h⟩)
    · cases heq
    · simp only [child?, Option.map_eq_some_iff] at hchild
      obtain ⟨entry, hentry, rfl⟩ := hchild
      exact ⟨entry, List.mem_of_getElem? hentry, h⟩
  · rintro ⟨entry, hentry, h⟩
    obtain ⟨position, hposition⟩ := List.getElem?_of_mem hentry
    exact .inr ⟨position, entry.2, by simp [child?, hposition], h⟩

/-- The leaves of a sequence are those of its items. -/
@[simp] theorem holds_sequence {items : List Node} :
    (sequence items).Holds value ↔ ∃ item ∈ items, item.Holds value := by
  rw [holds_iff]
  constructor
  · rintro (heq | ⟨position, child, hchild, h⟩)
    · cases heq
    · exact ⟨child, List.mem_of_getElem? hchild, h⟩
  · rintro ⟨item, hitem, h⟩
    obtain ⟨position, hposition⟩ := List.getElem?_of_mem hitem
    exact .inr ⟨position, item, hposition, h⟩

end Leaves

/-! ## The frame of a replacement -/

/-- Two nodes have the same shape, the same number of children and the same keys in order. -/
structure SameOutline (node other : Node) : Prop where
  kind : other.kind = node.kind
  length : other.length = node.length
  keys : other.keys? = node.keys?

/-- A replacement below a node keeps its outline. -/
theorem sameOutline_replaceAt (node new : Node) (position : Nat) (rest : Address) :
    SameOutline node (node.replaceAt (position :: rest) new) := by
  rw [replaceAt]
  split
  next child hchild => exact ⟨by simp, by simp, by simp⟩
  next hchild => exact ⟨rfl, rfl, rfl⟩

/-- Two trees differ at most at an address and below it: above it the nodes keep their outline, and
elsewhere the nodes are the same. -/
def AgreeOff (address : Address) (root other : Node) : Prop :=
  ∀ place, ¬ address <+: place →
    if place <+: address then
      ∀ node, root.subtree? place = some node →
        ∃ after, other.subtree? place = some after ∧ SameOutline node after
    else other.subtree? place = root.subtree? place

/-- A replacement changes nothing but the replaced place. -/
theorem agreeOff_replaceAt (root new : Node) (address : Address) :
    AgreeOff address root (root.replaceAt address new) := by
  intro place hbelow
  split
  next habove =>
    intro node hnode
    obtain ⟨back, rfl⟩ := habove
    refine ⟨node.replaceAt back new, subtree?_replaceAt_above hnode back new, ?_⟩
    -- The place is not the replaced one itself, so the replacement is made in a child.
    cases back with
    | nil => exact absurd (by simp) hbelow
    | cons position rest => exact sameOutline_replaceAt node new position rest
  next habove => exact subtree?_replaceAt_of_not_prefix hbelow habove

end Node

end TreePath

import TreePath.Navigation.Mutation

/-!
# Where one segment lands

A segment meets a node.  It is the root token, a name on a mapping, an index within a container or a
slice of a container; in all other cases it does not fit the node.  `Landing` lists these cases, and
`landing` says that there are no others, so that a proof about a single segment is one case analysis
with what reading, writing and deleting do in each case.  These equations stand in front of it, so
that no later proof opens the definitions.

A segment that does not fit fails with one error in every role (`Landing.misfit`): in the middle of
a path, read at its end, and written or deleted at its end.
-/

set_option autoImplicit false

namespace TreePath

/-- An index stands for a position within the container. -/
theorem lt_of_resolveIndex {index : Int64} {length position : Nat} {found : Kind}
    (h : resolveIndex index length found = .ok position) : position < length := by
  simp only [resolveIndex] at h
  generalize (if index < 0 then index + Int64.ofNat length else index) = resolved at h
  split at h
  next hrange =>
    cases h
    exact hrange.2
  next => cases h

/-- There is an item at the position that an index stands for. -/
theorem exists_getElem?_of_resolveIndex {α : Type} {items : List α} {index : Int64}
    {found : Kind} {position : Nat} (h : resolveIndex index items.length found = .ok position) :
    ∃ item, items[position]? = some item := by
  have hlt : position < items.length := lt_of_resolveIndex h
  exact ⟨items[position], List.getElem?_eq_getElem hlt⟩

/-- True of the segments that address one child. -/
def Segment.isSingle : Segment → Bool
  | .key _ => true
  | .index _ => true
  | _ => false

namespace Node

/-- The ways in which a segment can meet a node. -/
inductive Landing : Node → Segment → Prop
  | root (node : Node) : Landing node .root
  | key (entries : Entries Node) (name : String) : Landing (mapping entries) (.key name)
  | entry {entries : Entries Node} {i : Int64} {position : Nat} {key : String} {child : Node} :
      resolveIndex i entries.length .mapping = .ok position →
      entries[position]? = some (key, child) → Landing (mapping entries) (.index i)
  | item {items : List Node} {i : Int64} {position : Nat} {child : Node} :
      resolveIndex i items.length .sequence = .ok position →
      items[position]? = some child → Landing (sequence items) (.index i)
  | entries (entries : Entries Node) (range : Slice) : Landing (mapping entries) (.slice range)
  | items (items : List Node) (range : Slice) : Landing (sequence items) (.slice range)
  /-- the segment does not fit the node -/
  | misfit {node : Node} {segment : Segment} {e : PathError} :
      segment ≠ .root → node.position segment = .error e → node.readLast segment = .error e →
      (∀ mutation, mutateLast mutation node segment = .failed e node) → Landing node segment

/-! ## What happens at a name and at a slice -/

section Name

variable (entries : Entries Node) (name : String)

/-- A name reads the value of its entry, and nothing where there is none. -/
theorem readLast_key : (mapping entries).readLast (.key name) = .ok (Entries.get? entries name) :=
  rfl

/-- A write at a name puts the value there.  It answers with the old value, or with the new one where
the name is new. -/
theorem writeLast_key (value : Node) :
    writeLast value (mapping entries) (.key name) =
      .done (some ((Entries.get? entries name).getD value))
        (mapping (Entries.put name value entries)) := rfl

/-- A deletion at a name takes its entry out and answers with the value, and with nothing where there
is none. -/
theorem deleteLast_key :
    deleteLast (mapping entries) (.key name) =
      .done (Entries.get? entries name) (mapping (Entries.erase entries name)) := rfl

end Name

section Range

variable {items : List Node} {range : Slice} {value : Node}

/-- A slice of a sequence reads the sequence of its items, in the order of the selection. -/
theorem readLast_items (items : List Node) (range : Slice) :
    (sequence items).readLast (.slice range) =
      .ok (some (sequence (pick items (range.positions items.length)))) := rfl

/-- A write at a slice answers with the sequence of the items that were replaced. -/
theorem writeLast_items_ok {old new : List Node}
    (h : assignSlice items range value = .ok (old, new)) :
    writeLast value (sequence items) (.slice range) =
      .done (some (sequence old)) (sequence new) := by
  unfold writeLast
  simp only [h]

/-- A write at a slice that refuses the value leaves the sequence as it was. -/
theorem writeLast_items_error {fault : AssignmentFault}
    (h : assignSlice items range value = .error fault) :
    writeLast value (sequence items) (.slice range) =
      .failed (.invalidAssignment (.slice range) fault) (sequence items) := by
  unfold writeLast
  simp only [h]

end Range

/-! ## What happens at an index within the container -/

section Entry

variable {entries : Entries Node} {i : Int64} {position : Nat} {key : String} {child : Node}
  (hindex : resolveIndex i entries.length .mapping = .ok position)
  (hentry : entries[position]? = some (key, child))

include hindex

/-- An index within a mapping leads to the entry at its position. -/
theorem position_entry : (mapping entries).position (.index i) = .ok (some position) := by
  rw [Node.position, hindex]
  rfl

include hentry

/-- An index within a mapping reads its entry as a mapping of this entry alone. -/
theorem readLast_entry :
    (mapping entries).readLast (.index i) = .ok (some (singleton key child)) := by
  unfold readLast
  simp only [hindex, hentry, bind, Except.bind, pure, Except.pure, Option.map_some]

/-- A write at an index of a mapping stores the value under the key that is there, and answers with
the old entry. -/
theorem writeLast_entry (value : Node) :
    writeLast value (mapping entries) (.index i) =
      .done (some (singleton key child)) ((mapping entries).setChild position value) := by
  unfold writeLast
  simp only [hindex, hentry, Option.map_some]

/-- A deletion at an index of a mapping takes the entry out and answers with it. -/
theorem deleteLast_entry :
    deleteLast (mapping entries) (.index i) =
      .done (some (singleton key child)) (mapping (entries.eraseIdx position)) := by
  unfold deleteLast
  simp only [hindex, hentry, Option.map_some]

/-- With another value under its key, the entry is at the same position, and the index still stands
for it. -/
theorem entry_modify (value : Node) :
    resolveIndex i (entries.modify position fun entry => (entry.1, value)).length .mapping =
        .ok position ∧
      (entries.modify position fun entry => (entry.1, value))[position]? = some (key, value) := by
  constructor
  · rw [List.length_modify, hindex]
  · simp [hentry]

end Entry

section Item

variable {items : List Node} {i : Int64} {position : Nat} {child : Node}
  (hindex : resolveIndex i items.length .sequence = .ok position)
  (hitem : items[position]? = some child)

include hindex

/-- The index stands for the same place with another item. -/
theorem item_set (value : Node) :
    resolveIndex i (items.set position value).length .sequence = .ok position ∧
      (items.set position value)[position]? = some value := by
  have hlt : position < items.length := lt_of_resolveIndex hindex
  constructor
  · rw [List.length_set, hindex]
  · simp [hlt]

/-- An index within a sequence leads to the item at its position. -/
theorem position_item : (sequence items).position (.index i) = .ok (some position) := by
  rw [Node.position, hindex]
  rfl

include hitem

/-- An index within a sequence reads the item. -/
theorem readLast_item : (sequence items).readLast (.index i) = .ok (some child) := by
  unfold readLast
  simp only [hindex, hitem, bind, Except.bind, pure, Except.pure]

/-- A write at an index of a sequence exchanges the item for the value. -/
theorem writeLast_item (value : Node) :
    writeLast value (sequence items) (.index i) =
      .done (some child) ((sequence items).setChild position value) := by
  unfold writeLast
  simp only [hindex, hitem]

/-- A deletion at an index of a sequence takes the item out, and those behind it move up. -/
theorem deleteLast_item :
    deleteLast (sequence items) (.index i) =
      .done (some child) (sequence (items.eraseIdx position)) := by
  unfold deleteLast
  simp only [hindex, hitem]

end Item

/-! ## What happens at an index beyond the container -/

/-- An index beyond a mapping leads nowhere, with the error of the index. -/
theorem position_beyond_mapping {entries : Entries Node} {i : Int64} {e : PathError}
    (hindex : resolveIndex i entries.length .mapping = .error e) :
    (mapping entries).position (.index i) = .error e := by
  rw [Node.position, hindex]
  rfl

/-- An index beyond a sequence leads nowhere, with the error of the index. -/
theorem position_beyond_sequence {items : List Node} {i : Int64} {e : PathError}
    (hindex : resolveIndex i items.length .sequence = .error e) :
    (sequence items).position (.index i) = .error e := by
  rw [Node.position, hindex]
  rfl

/-! ## The case analysis -/

/-- An index beyond a mapping does not fit it. -/
theorem landing_beyond_mapping {entries : Entries Node} {i : Int64} {e : PathError}
    (hindex : resolveIndex i entries.length .mapping = .error e) :
    Landing (mapping entries) (.index i) := by
  have hread : (mapping entries).readLast (.index i) = .error e := by
    unfold readLast
    simp only [hindex, bind, Except.bind]
  have hmutate : ∀ mutation, mutateLast mutation (mapping entries) (.index i) =
      .failed e (mapping entries) := by
    intro mutation
    unfold mutateLast writeLast deleteLast
    cases mutation <;> simp only [hindex]
  exact .misfit (by simp) (position_beyond_mapping hindex) hread hmutate

/-- An index beyond a sequence does not fit it. -/
theorem landing_beyond_sequence {items : List Node} {i : Int64} {e : PathError}
    (hindex : resolveIndex i items.length .sequence = .error e) :
    Landing (sequence items) (.index i) := by
  have hread : (sequence items).readLast (.index i) = .error e := by
    unfold readLast
    simp only [hindex, bind, Except.bind]
  have hmutate : ∀ mutation, mutateLast mutation (sequence items) (.index i) =
      .failed e (sequence items) := by
    intro mutation
    unfold mutateLast writeLast deleteLast
    cases mutation <;> simp only [hindex]
  exact .misfit (by simp) (position_beyond_sequence hindex) hread hmutate

/-- A name does not fit a sequence, in any role. -/
theorem landing_key_sequence (items : List Node) (name : String) :
    Landing (sequence items) (.key name) :=
  .misfit (by simp) rfl rfl fun mutation => by cases mutation <;> rfl

/-- Only the root token fits a leaf. -/
theorem landing_scalar (leaf : Scalar) (segment : Segment) : Landing (scalar leaf) segment := by
  cases segment with
  | root => exact .root _
  | key name => exact .misfit (by simp) rfl rfl fun mutation => by cases mutation <;> rfl
  | index i => exact .misfit (by simp) rfl rfl fun mutation => by cases mutation <;> rfl
  | slice range => exact .misfit (by simp) rfl rfl fun mutation => by cases mutation <;> rfl

/-- Every segment meets every node in one of the listed ways. -/
theorem landing (node : Node) (segment : Segment) : Landing node segment := by
  cases node with
  | mapping entries =>
    cases segment with
    | root => exact .root _
    | key name => exact .key entries name
    | index i =>
      cases hindex : resolveIndex i entries.length .mapping with
      | error e => exact landing_beyond_mapping hindex
      | ok position =>
        obtain ⟨⟨key, child⟩, hentry⟩ := exists_getElem?_of_resolveIndex hindex
        exact .entry hindex hentry
    | slice range => exact .entries entries range
  | sequence items =>
    cases segment with
    | root => exact .root _
    | key name => exact landing_key_sequence items name
    | index i =>
      cases hindex : resolveIndex i items.length .sequence with
      | error e => exact landing_beyond_sequence hindex
      | ok position =>
        obtain ⟨child, hitem⟩ := exists_getElem?_of_resolveIndex hindex
        exact .item hindex hitem
    | slice range => exact .items items range
  | scalar leaf => exact landing_scalar leaf segment

/-- A name or an index that leads to no child fails at the end of a path as well. -/
theorem misfit_of_position_error {node : Node} {segment : Segment} {e : PathError}
    (hsingle : segment.isSingle) (h : node.position segment = .error e) :
    node.readLast segment = .error e ∧
      ∀ mutation, mutateLast mutation node segment = .failed e node := by
  cases landing node segment with
  | root => cases hsingle
  | key entries name => cases h
  | entry hindex hentry =>
    rw [position_entry hindex] at h
    cases h
  | item hindex hitem =>
    rw [position_item hindex] at h
    cases h
  | entries entries range => cases hsingle
  | items items range => cases hsingle
  | misfit hsegment hposition hread hmutate =>
    obtain rfl : _ = e := Except.error.inj (hposition.symm.trans h)
    exact ⟨hread, hmutate⟩

end Node

end TreePath

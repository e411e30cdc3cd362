import TreePath.Proofs.Checked.Positions
import TreePath.Proofs.Navigation.Divergence
import TreePath.Proofs.WellFormed

/-!
# Reading, with everything checked

Reading in operations that can stop.  A read goes through its path segment by segment, as a program
on a machine does: it looks an index up, takes the child, and goes on in it.  Operations that always
have a result, such as looking a name up, are those of the library.  In a tree that fits a machine
nothing stops a read, whatever segments its path has (`read_eq_ok`).
-/

set_option autoImplicit false

namespace TreePath.Checked

/-- Reads the part of a tree that a path addresses. -/
def read (node : Node) : Path → Checked (Except PathError (Option Node))
  | [] => .ok (.ok (some node))
  | .root :: rest => read node rest
  | .key name :: rest =>
    match node with
    | .mapping entries =>
      match Entries.get? entries name with
      | some child => read child rest
      | none => .ok (.ok none)
    | node => .ok (node.mismatch (.key name))
  | .index i :: rest =>
    match node with
    | .sequence items => do
      match ← resolveIndex i items.length .sequence with
      | .error e => return .error e
      | .ok position =>
        let child ← item items position
        read child rest
    | .mapping entries => do
      match ← resolveIndex i entries.length .mapping with
      | .error e => return .error e
      | .ok position =>
        let (key, child) ← entry entries position
        if rest.isEmpty then return .ok (some (.singleton key child)) else read child rest
    | node => .ok (node.mismatch (.index i))
  | .slice range :: rest =>
    if rest.isEmpty then
      match node with
      | .sequence list => do
        let positions ← positions range list.length
        let selected ← items list positions
        return .ok (some (.sequence selected))
      | .mapping entries => do
        let positions ← positions range entries.length
        return .ok (some (.mapping (Entries.ofList (pick entries positions))))
      | node => .ok (node.mismatch (.slice range))
    else .ok (node.noBranch (.slice range))

/-! ## Children of a tree that fits -/

variable {entries : Entries Node} {list : List Node} {rest : Path} {i : Int64} {position : Nat}
  {name key : String} {child : Node}

/-- The value of a name in a sized tree is sized. -/
theorem sized_of_get? (h : (Node.mapping entries).Sized)
    (hfound : Entries.get? entries name = some child) : child.Sized := by
  have hmem : (name, child) ∈ entries := Entries.mem_of_get? hfound
  exact ((Node.sized_mapping entries).mp h).2 _ hmem

/-- The value of an entry of a sized tree is sized. -/
theorem sized_of_entry (h : (Node.mapping entries).Sized)
    (hentry : entries[position]? = some (key, child)) : child.Sized := by
  have hmem : (key, child) ∈ entries := List.mem_of_getElem? hentry
  exact ((Node.sized_mapping entries).mp h).2 _ hmem

/-- An item of a sized tree is sized. -/
theorem sized_of_item (h : (Node.sequence list).Sized) (hitem : list[position]? = some child) :
    child.Sized := by
  have hmem : child ∈ list := List.mem_of_getElem? hitem
  exact ((Node.sized_sequence list).mp h).2 _ hmem

/-- The positions of a slice are all within the list, so its items are there. -/
theorem items_positions_eq_ok (hlength : FitsWord list.length) (range : Slice) :
    items list (range.positions list.length) = .ok (pick list (range.positions list.length)) := by
  apply items_eq_ok
  intro position hposition
  exact Slice.lt_of_mem_positions hlength hposition

/-! ## Reading -/

section Read

variable (ih : ∀ {child : Node}, child.Sized → read child rest = .ok (child.read rest))

include ih

/-- A read behind a name is carried out. -/
theorem read_key_eq_ok (name : String) (h : (Node.mapping entries).Sized) :
    read (.mapping entries) (.key name :: rest) =
      .ok ((Node.mapping entries).read (.key name :: rest)) := by
  rw [Node.read_key]
  simp only [read]
  cases hfound : Entries.get? entries name with
  | none => rfl
  | some child => exact ih (sized_of_get? h hfound)

/-- A read behind an index of a sequence is carried out, or refused with the same error. -/
theorem read_item_eq_ok (i : Int64) (h : (Node.sequence list).Sized) :
    read (.sequence list) (.index i :: rest) =
      .ok ((Node.sequence list).read (.index i :: rest)) := by
  have hlength : FitsWord list.length := h.fitsWord_length
  simp only [read, resolveIndex_eq_ok i hlength, bind, Except.bind]
  cases hindex : TreePath.resolveIndex i list.length .sequence with
  | error e =>
    rw [Node.read_of_position_error rfl (Node.position_beyond_sequence hindex)]
    rfl
  | ok position =>
    obtain ⟨child, hitem⟩ := exists_getElem?_of_resolveIndex hindex
    simp only [item_eq_ok hitem, ih (sized_of_item h hitem)]
    by_cases hrest : rest = []
    · subst hrest
      rw [Node.read, Node.read, Node.readLast_item hindex hitem]
    · rw [Node.read_down (Node.position_item hindex) hitem hrest]

/-- A read behind an index of a mapping is carried out: no entry vanishes between the check of the
index and its use. -/
theorem read_entry_eq_ok (i : Int64) (h : (Node.mapping entries).Sized) :
    read (.mapping entries) (.index i :: rest) =
      .ok ((Node.mapping entries).read (.index i :: rest)) := by
  have hlength : FitsWord entries.length := h.fitsWord_length
  simp only [read, resolveIndex_eq_ok i hlength, bind, Except.bind]
  cases hindex : TreePath.resolveIndex i entries.length .mapping with
  | error e =>
    rw [Node.read_of_position_error rfl (Node.position_beyond_mapping hindex)]
    rfl
  | ok position =>
    obtain ⟨⟨key, child⟩, hentry⟩ := exists_getElem?_of_resolveIndex hindex
    simp only [entry_eq_ok hentry]
    by_cases hrest : rest = []
    · subst hrest
      rw [Node.read, Node.readLast_entry hindex hentry]
      rfl
    · have hchild : (Node.mapping entries).child? position = some child := by
        rw [Node.child?, hentry, Option.map_some]
      have hfalse : rest.isEmpty = false := by simpa using hrest
      simp only [hfalse, ih (sized_of_entry h hentry)]
      rw [Node.read_down (Node.position_entry hindex) hchild hrest]
      rfl

omit ih

/-- A read of a slice is carried out when the slice ends the path, and refused when it does not. -/
theorem read_slice_eq_ok {node : Node} (h : node.Sized) (range : Slice) (rest : Path) :
    read node (.slice range :: rest) = .ok (node.read (.slice range :: rest)) := by
  by_cases hrest : rest = []
  · subst hrest
    cases node with
    | scalar leaf => rfl
    | mapping entries =>
      have hlength : FitsWord entries.length := h.fitsWord_length
      simp only [read, positions_eq_ok range hlength]
      rfl
    | sequence list =>
      have hlength : FitsWord list.length := h.fitsWord_length
      simp only [read, positions_eq_ok range hlength, bind, Except.bind,
        items_positions_eq_ok hlength]
      rfl
  · have hfalse : rest.isEmpty = false := by simpa using hrest
    rw [Node.read_cons node (by simp) hrest]
    cases node <;> simp [read, hfalse, Node.position, Node.noBranch, Node.mismatch]

end Read

/-- Nothing stops a read in a tree that fits. -/
theorem read_eq_ok {root : Node} (h : root.Sized) (path : Path) :
    read root path = .ok (root.read path) := by
  induction path generalizing root with
  | nil => rfl
  | cons segment rest ih =>
    cases segment with
    | root =>
      by_cases hrest : rest = []
      · subst hrest
        rfl
      · rw [Node.read_root_cons root hrest]
        exact ih h
    | key name =>
      cases root with
      | mapping entries => exact read_key_eq_ok ih name h
      | sequence list =>
        rw [Node.read_of_position_error rfl rfl]
        rfl
      | scalar leaf =>
        rw [Node.read_of_position_error rfl rfl]
        rfl
    | index i =>
      cases root with
      | mapping entries => exact read_entry_eq_ok ih i h
      | sequence list => exact read_item_eq_ok ih i h
      | scalar leaf =>
        rw [Node.read_of_position_error rfl rfl]
        rfl
    | slice range => exact read_slice_eq_ok h range rest

end TreePath.Checked

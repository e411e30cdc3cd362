import TreePath.Proofs.Checked.Read

/-!
# Changing a tree, with everything checked

Writing and deleting in operations that can stop.  A part of a list is cut out, items are exchanged
at the positions of a slice, marks are set and looked up, and an entry is taken at the position that
an index was resolved to.

In a tree that fits a machine nothing stops reading, writing or deleting, whatever segments the path
has, and they do what the definitions of the library say (`navigation_completes`).  So no index is
out of range there, no part that is cut out of a list is ill-formed, no sum leaves the range of
words, no negative word is taken for a position, and every index that was resolved finds its entry.
-/

set_option autoImplicit false

namespace TreePath.Checked

/-! ## Definitions -/

/-- Changes the item at a position of a sequence. -/
def changeItem (mutation : Mutation) (items : List Node) (position : Nat) :
    Checked (Change (Option Node)) :=
  match mutation with
  | .write value => do
    let (old, items) ← replace items position value
    return .done (some old) (.sequence items)
  | .delete => do
    let (old, items) ← remove items position
    return .done (some old) (.sequence items)

/-- Changes the entry at a position of a mapping. -/
def changeEntry (mutation : Mutation) (entries : Entries Node) (position : Nat) :
    Checked (Change (Option Node)) := do
  let (key, old) ← entry entries position
  match mutation with
  | .write value =>
    return .done (some (.singleton key old)) ((Node.mapping entries).setChild position value)
  | .delete => return .done (some (.singleton key old)) (.mapping (entries.eraseIdx position))

/-- Assigns a value to a slice of a sequence, giving the old items and the new sequence. -/
def assignSlice (items : List Node) (range : Slice) (value : Node) :
    Checked (Except AssignmentFault (List Node × List Node)) :=
  match value with
  | .sequence values =>
    if range.step = 1 then do
      let (first, last) ← bounds range items.length
      let start ← toPosition first
      let stop ← toPosition last
      let change ← splice items start (max stop start) values
      return .ok change
    else do
      let positions ← positions range items.length
      if positions.length = values.length then
        let change ← exchange items (positions.zip values)
        return .ok change
      else return .error (.lengthMismatch values.length positions.length)
  | other => .ok (.error (.notASequence other.kind))

/-- Changes the items of a slice. -/
def changeItems (mutation : Mutation) (list : List Node) (range : Slice) :
    Checked (Change (Option Node)) :=
  match mutation with
  | .write value => do
    match ← assignSlice list range value with
    | .ok (old, new) => return .done (some (.sequence old)) (.sequence new)
    | .error fault => return .failed (.invalidAssignment (.slice range) fault) (.sequence list)
  | .delete => do
    let positions ← positions range list.length
    let removed ← items list positions
    let marks ← mark (List.replicate list.length false) positions
    let kept ← retain marks 0 list
    return .done (some (.sequence removed)) (.sequence kept)

/-- Changes the entries of a slice. -/
def changeEntries (mutation : Mutation) (entries : Entries Node) (range : Slice) :
    Checked (Change (Option Node)) :=
  match mutation with
  | .write _ =>
    .ok (.failed (.invalidAssignment (.slice range) .rangeOfKeys) (.mapping entries))
  | .delete => do
    let positions ← positions range entries.length
    let (removed, kept) := Entries.eraseEach entries (Entries.keys (pick entries positions))
    return .done (some (.mapping (Entries.ofList removed))) (.mapping kept)

/-- Applies a mutation at the end of a path. -/
def mutate (mutation : Mutation) (node : Node) : Path → Checked (Change (Option Node))
  | [] => .ok (.failed (.protectedRoot mutation.action) node)
  | .root :: rest => mutate mutation node rest
  | .key name :: rest =>
    match node with
    | .mapping entries =>
      if rest.isEmpty then .ok (Node.mutateLast mutation (.mapping entries) (.key name))
      else
        match Entries.get? entries name, mutation with
        | some child, mutation => do
          let change ← mutate mutation child rest
          return change.within fun tree => .mapping (Entries.put name tree entries)
        | none, .write value => do
          let change ← mutate (.write value) .emptyMapping rest
          return change.within fun tree => .mapping (Entries.put name tree entries)
        | none, .delete => .ok (.done none (.mapping entries))
    | node => .ok ⟨node.mismatch (.key name), node⟩
  | .index i :: rest =>
    match node with
    | .sequence items => do
      match ← resolveIndex i items.length .sequence with
      | .error e => return .failed e (.sequence items)
      | .ok position =>
        if rest.isEmpty then changeItem mutation items position
        else
          let child ← item items position
          let change ← mutate mutation child rest
          return change.within fun tree => .sequence (items.set position tree)
    | .mapping entries => do
      match ← resolveIndex i entries.length .mapping with
      | .error e => return .failed e (.mapping entries)
      | .ok position =>
        if rest.isEmpty then changeEntry mutation entries position
        else
          let (_, child) ← entry entries position
          let change ← mutate mutation child rest
          return change.within fun tree => (Node.mapping entries).setChild position tree
    | node => .ok ⟨node.mismatch (.index i), node⟩
  | .slice range :: rest =>
    if rest.isEmpty then
      match node with
      | .sequence items => changeItems mutation items range
      | .mapping entries => changeEntries mutation entries range
      | node => .ok ⟨node.mismatch (.slice range), node⟩
    else .ok ⟨node.noBranch (.slice range), node⟩

/-- Writes a value and answers with the one that it replaced. -/
def write (value node : Node) (path : Path) : Checked (Change Node) := do
  let change ← mutate (.write value) node path
  return change.map (·.getD .null)

/-- Deletes what is there and answers with it. -/
def delete (node : Node) (path : Path) : Checked (Change (Option Node)) := mutate .delete node path

/-! ## Changes at the end of a path -/

variable {entries : Entries Node} {list : List Node} {rest : Path} {i : Int64} {position : Nat}
  {key : String} {child : Node}

/-- The change of an item that an index stands for is carried out, and is the change of the sequence
at its last segment. -/
theorem changeItem_eq_ok (mutation : Mutation)
    (hindex : TreePath.resolveIndex i list.length .sequence = .ok position)
    (hitem : list[position]? = some child) :
    changeItem mutation list position =
      .ok (Node.mutateLast mutation (.sequence list) (.index i)) := by
  cases mutation with
  | write value =>
    rw [changeItem, replace_eq_ok hitem, Node.mutateLast, Node.writeLast_item hindex hitem]
    rfl
  | delete =>
    rw [changeItem, remove_eq_ok hitem, Node.mutateLast, Node.deleteLast_item hindex hitem]
    rfl

/-- The change of an entry that an index stands for is carried out, and is the change of the mapping
at its last segment. -/
theorem changeEntry_eq_ok (mutation : Mutation)
    (hindex : TreePath.resolveIndex i entries.length .mapping = .ok position)
    (hentry : entries[position]? = some (key, child)) :
    changeEntry mutation entries position =
      .ok (Node.mutateLast mutation (.mapping entries) (.index i)) := by
  cases mutation with
  | write value =>
    rw [changeEntry, entry_eq_ok hentry, Node.mutateLast, Node.writeLast_entry hindex hentry]
    rfl
  | delete =>
    rw [changeEntry, entry_eq_ok hentry, Node.mutateLast, Node.deleteLast_entry hindex hentry]
    rfl

/-- A contiguous slice is a part of its list, and the positions of any other slice have items. -/
theorem assignSlice_eq_ok (hlength : FitsWord list.length) (range : Slice) (value : Node) :
    assignSlice list range value = .ok (TreePath.assignSlice list range value) := by
  cases value with
  | scalar leaf => rfl
  | mapping entries => rfl
  | sequence values =>
    rw [assignSlice, TreePath.assignSlice]
    by_cases hstep : range.step = 1
    · have hup : 0 < range.step := by
        rw [hstep]
        decide
      obtain ⟨⟨hstart, hstart'⟩, hstop, hstop'⟩ := Slice.bounds_upward hlength hup
      have hle : (range.bounds list.length).1.toInt.toNat ≤
          max (range.bounds list.length).2.toInt.toNat (range.bounds list.length).1.toInt.toNat := by
        omega
      have hend : max (range.bounds list.length).2.toInt.toNat
          (range.bounds list.length).1.toInt.toNat ≤ list.length := by
        omega
      simp only [if_pos hstep, bounds_eq_ok range hlength, bind, Except.bind,
        toPosition_eq_ok hstart, toPosition_eq_ok hstop, splice_eq_ok hle hend]
      rfl
    · simp only [if_neg hstep, positions_eq_ok range hlength, bind, Except.bind]
      split
      next hcount =>
        have hwithin : ∀ change ∈ (range.positions list.length).zip values,
            change.1 < list.length := by
          intro change hchange
          exact Slice.lt_of_mem_positions hlength (List.of_mem_zip hchange).1
        rw [exchange_eq_ok list hwithin]
        rfl
      next => rfl

/-- The change of a slice of a sequence is carried out, whatever the bounds and the step are. -/
theorem changeItems_eq_ok (mutation : Mutation) (hlength : FitsWord list.length) (range : Slice) :
    changeItems mutation list range =
      .ok (Node.mutateLast mutation (.sequence list) (.slice range)) := by
  cases mutation with
  | write value =>
    rw [changeItems, assignSlice_eq_ok hlength, Node.mutateLast]
    cases hassign : TreePath.assignSlice list range value with
    | error fault =>
      rw [Node.writeLast_items_error hassign]
      rfl
    | ok change =>
      rw [Node.writeLast_items_ok hassign]
      rfl
  | delete =>
    have hmarks : mark (List.replicate list.length false) (range.positions list.length) =
        .ok (marks list.length (range.positions list.length)) := by
      apply mark_eq_ok
      intro position hposition
      rw [List.length_replicate]
      exact Slice.lt_of_mem_positions hlength hposition
    have hcount : 0 + list.length ≤ (marks list.length (range.positions list.length)).length := by
      rw [length_marks]
      omega
    have hkept := retain_eq_ok 0 list hcount
    simp only [changeItems, positions_eq_ok range hlength, bind, Except.bind,
      items_positions_eq_ok hlength, hmarks, hkept]
    rfl

/-- The change of a slice of a mapping is carried out, or refused with the error that the definition
gives. -/
theorem changeEntries_eq_ok (mutation : Mutation) (hlength : FitsWord entries.length)
    (range : Slice) :
    changeEntries mutation entries range =
      .ok (Node.mutateLast mutation (.mapping entries) (.slice range)) := by
  cases mutation with
  | write value => rfl
  | delete =>
    rw [changeEntries, positions_eq_ok range hlength]
    rfl

/-! ## Changes along a path -/

section Mutate

variable (mutation : Mutation)
  (ih : ∀ {child : Node}, child.Sized →
    mutate mutation child rest = .ok (Node.mutate mutation child rest))

include ih

/-- A change behind a name is carried out.  The rest of the path is followed in the value of the name,
which is as well sized as the mapping. -/
theorem mutate_key_eq_ok (name : String) (h : (Node.mapping entries).Sized) :
    mutate mutation (.mapping entries) (.key name :: rest) =
      .ok (Node.mutate mutation (.mapping entries) (.key name :: rest)) := by
  by_cases hrest : rest = []
  · subst hrest
    rfl
  have hfalse : rest.isEmpty = false := by simpa using hrest
  simp only [mutate, hfalse]
  cases hfound : Entries.get? entries name with
  | some child =>
    -- The changed child is stored under its name again.
    obtain ⟨address, hleads, hplace⟩ := Node.replaceAt_key hfound
    have hstep := Node.mutate_append mutation hleads hrest
    rw [List.singleton_append, funext hplace] at hstep
    simp only [ih (sized_of_get? h hfound), hstep]
    rfl
  | none =>
    have habsent := Entries.get?_eq_none_iff.mp hfound
    cases mutation with
    | write value =>
      have hempty : Node.emptyMapping.Sized := by simp [Node.emptyMapping]
      simp only [ih hempty, Node.mutate_write_absent value habsent hrest,
        Entries.put_of_not_mem _ habsent]
      rfl
    | delete =>
      rw [Node.mutate_cons _ _ (by simp) hrest, Node.position_key_of_not_mem habsent]
      rfl

/-- A change behind an index of a sequence is carried out, or refused with the same error. -/
theorem mutate_item_eq_ok (i : Int64) (h : (Node.sequence list).Sized) :
    mutate mutation (.sequence list) (.index i :: rest) =
      .ok (Node.mutate mutation (.sequence list) (.index i :: rest)) := by
  have hlength : FitsWord list.length := h.fitsWord_length
  simp only [mutate, resolveIndex_eq_ok i hlength, bind, Except.bind]
  cases hindex : TreePath.resolveIndex i list.length .sequence with
  | error e =>
    rw [Node.mutate_of_position_error mutation rfl (Node.position_beyond_sequence hindex)]
    rfl
  | ok position =>
    obtain ⟨child, hitem⟩ := exists_getElem?_of_resolveIndex hindex
    by_cases hrest : rest = []
    · subst hrest
      exact changeItem_eq_ok mutation hindex hitem
    · have hfalse : rest.isEmpty = false := by simpa using hrest
      simp only [hfalse, item_eq_ok hitem, ih (sized_of_item h hitem)]
      rw [Node.mutate_down mutation (Node.position_item hindex) hitem hrest]
      rfl

/-- A change behind an index of a mapping is carried out: no entry vanishes between the check of the
index and its use. -/
theorem mutate_entry_eq_ok (i : Int64) (h : (Node.mapping entries).Sized) :
    mutate mutation (.mapping entries) (.index i :: rest) =
      .ok (Node.mutate mutation (.mapping entries) (.index i :: rest)) := by
  have hlength : FitsWord entries.length := h.fitsWord_length
  simp only [mutate, resolveIndex_eq_ok i hlength, bind, Except.bind]
  cases hindex : TreePath.resolveIndex i entries.length .mapping with
  | error e =>
    rw [Node.mutate_of_position_error mutation rfl (Node.position_beyond_mapping hindex)]
    rfl
  | ok position =>
    obtain ⟨⟨key, child⟩, hentry⟩ := exists_getElem?_of_resolveIndex hindex
    by_cases hrest : rest = []
    · subst hrest
      exact changeEntry_eq_ok mutation hindex hentry
    · have hchild : (Node.mapping entries).child? position = some child := by
        rw [Node.child?, hentry, Option.map_some]
      have hfalse : rest.isEmpty = false := by simpa using hrest
      simp only [hfalse, entry_eq_ok hentry, ih (sized_of_entry h hentry)]
      rw [Node.mutate_down mutation (Node.position_entry hindex) hchild hrest]
      rfl

omit ih

/-- A change at a slice is carried out when the slice ends the path, and refused when it does not. -/
theorem mutate_slice_eq_ok {node : Node} (h : node.Sized) (range : Slice) (rest : Path) :
    mutate mutation node (.slice range :: rest) =
      .ok (Node.mutate mutation node (.slice range :: rest)) := by
  by_cases hrest : rest = []
  · subst hrest
    cases node with
    | scalar leaf => cases mutation <;> rfl
    | mapping entries => exact changeEntries_eq_ok mutation h.fitsWord_length range
    | sequence list => exact changeItems_eq_ok mutation h.fitsWord_length range
  · have hfalse : rest.isEmpty = false := by simpa using hrest
    rw [Node.mutate_cons mutation node (by simp) hrest]
    cases node <;> simp [mutate, hfalse, Node.position, Node.noBranch, Node.mismatch, Change.failed]

end Mutate

/-- Nothing stops a mutation of a tree that fits. -/
theorem mutate_eq_ok {root : Node} (h : root.Sized) (mutation : Mutation) (path : Path) :
    mutate mutation root path = .ok (Node.mutate mutation root path) := by
  induction path generalizing root with
  | nil => rfl
  | cons segment rest ih =>
    cases segment with
    | root =>
      by_cases hrest : rest = []
      · subst hrest
        cases mutation <;> rfl
      · rw [Node.mutate_root_cons mutation root hrest]
        exact ih h
    | key name =>
      cases root with
      | mapping entries => exact mutate_key_eq_ok mutation ih name h
      | sequence list =>
        rw [Node.mutate_of_position_error mutation rfl rfl]
        rfl
      | scalar leaf =>
        rw [Node.mutate_of_position_error mutation rfl rfl]
        rfl
    | index i =>
      cases root with
      | mapping entries => exact mutate_entry_eq_ok mutation ih i h
      | sequence list => exact mutate_item_eq_ok mutation ih i h
      | scalar leaf =>
        rw [Node.mutate_of_position_error mutation rfl rfl]
        rfl
    | slice range => exact mutate_slice_eq_ok mutation h range rest

/-- **Nothing stops reading, writing and deleting in a tree that fits a machine**, along any path and
with any value: each comes to the result, or to the error, that its definition gives. -/
theorem navigation_completes {root : Node} (h : root.Sized) (path : Path) (value : Node) :
    read root path = .ok (root.read path) ∧
      write value root path = .ok (Node.write value root path) ∧
      delete root path = .ok (root.delete path) := by
  refine ⟨read_eq_ok h path, ?_, mutate_eq_ok h .delete path⟩
  rw [write, mutate_eq_ok h]
  rfl

/-- A step of zero, an index at the end of the range of words, and one counted from the end. -/
theorem navigation_completes_sample :
    Node.sample.Sized ∧
      read Node.sample [.key "list", .slice ⟨some (-1), none, 0⟩] =
        .ok (.ok (some (.sequence []))) ∧
      write .null Node.sample [.key "list", .index Int64.minValue] =
        .ok (.failed (.indexOutOfRange Int64.minValue 3 .sequence) Node.sample) ∧
      delete Node.sample [.key "map", .index (-1)] =
        .ok (.done (some (.singleton "on" (.ofBool true)))
          (.mapping [("list", .sequence [.ofInt64 1, .ofInt64 2, .ofInt64 3]),
            ("map", .mapping [])])) := by
  have hsized : Node.sample.Sized := Node.sample_wellFormed.sized
  refine ⟨hsized, ?_, ?_, ?_⟩
  · exact (navigation_completes hsized [.key "list", .slice ⟨some (-1), none, 0⟩] .null).1
  · exact (navigation_completes hsized [.key "list", .index Int64.minValue] .null).2.1
  · exact (navigation_completes hsized [.key "map", .index (-1)] .null).2.2

end TreePath.Checked

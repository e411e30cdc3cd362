import TreePath.Proofs.Navigation.Landing
import TreePath.Proofs.Slice.Changes
import TreePath.Proofs.WellFormed

/-!
# The last segment of a path

What reading, writing and deleting do with the last segment of a path at the node that the segments
in front of it lead to.  The read decides the other two.  Where it fails they fail with the same
error (`mutateLast_of_error`), and where it finds a value under a name or an index a write answers
with that value (`result_writeLast_of_isSingle`).  A write to a slice answers with what the slice
reads, or refuses the value and leaves the node (`writeLast_slice`).  A deletion answers as the read
does (`result_deleteLast`).

Writing and reading the same segment obey the lens laws.  What is read under a name, or at an index
or a slice of a sequence, can be put back (`writeLast_readLast_key`, `writeLast_readLast_item`,
`writeLast_readLast_slice`).  What is written under a name or at an index is read
(`readLast_writeLast_key`, `readLast_writeLast_index`), and the second of two writes hides the first
(`writeLast_writeLast`).
-/

set_option autoImplicit false

namespace TreePath

namespace Node

variable {node value old : Node} {segment : Segment} {e : PathError}

/-! ## Reading -/

/-- The root token reads the node itself. -/
theorem readLast_root (node : Node) : node.readLast .root = .ok (some node) := by
  cases node <;> rfl

/-- The last segment finds nothing exactly where a mapping does not have its name. -/
theorem eq_key_of_readLast_eq_none (h : node.readLast segment = .ok none) :
    ∃ name entries, segment = .key name ∧ node = mapping entries ∧ name ∉ Entries.keys entries := by
  cases landing node segment with
  | root =>
    rw [readLast_root] at h
    cases h
  | key entries name =>
    rw [readLast_key, Except.ok.injEq] at h
    exact ⟨name, entries, rfl, rfl, Entries.get?_eq_none_iff.mp h⟩
  | entry hindex hentry =>
    rw [readLast_entry hindex hentry] at h
    cases h
  | item hindex hitem =>
    rw [readLast_item hindex hitem] at h
    cases h
  | entries entries range => cases h
  | items items range => cases h
  | misfit hsegment hposition hread hmutate =>
    rw [hread] at h
    cases h

/-- Where the read fails every mutation fails with the same error and leaves the node. -/
theorem mutateLast_of_error (mutation : Mutation) (h : node.readLast segment = .error e) :
    mutateLast mutation node segment = .failed e node := by
  cases landing node segment with
  | root =>
    rw [readLast_root] at h
    cases h
  | key entries name => cases h
  | entry hindex hentry =>
    rw [readLast_entry hindex hentry] at h
    cases h
  | item hindex hitem =>
    rw [readLast_item hindex hitem] at h
    cases h
  | entries entries range => cases h
  | items items range => cases h
  | misfit hsegment hposition hread hmutate =>
    rw [hread] at h
    cases h
    exact hmutate mutation

/-! ## Writing -/

/-- A write to a name or an index answers with what the read finds there. -/
theorem result_writeLast_of_isSingle (value : Node) (hsingle : segment.isSingle)
    (h : node.readLast segment = .ok (some old)) :
    (writeLast value node segment).result = .ok (some old) := by
  cases landing node segment with
  | root => cases hsingle
  | key entries name =>
    rw [readLast_key, Except.ok.injEq] at h
    rw [writeLast_key, h]
    rfl
  | entry hindex hentry =>
    rw [readLast_entry hindex hentry] at h
    rw [writeLast_entry hindex hentry, ← h]
    rfl
  | item hindex hitem =>
    rw [readLast_item hindex hitem] at h
    rw [writeLast_item hindex hitem, ← h]
    rfl
  | entries entries range => cases hsingle
  | items items range => cases hsingle
  | misfit hsegment hposition hread hmutate =>
    rw [hread] at h
    cases h

/-- A write to a slice answers with what the slice reads, or refuses the value and leaves the
node. -/
theorem writeLast_slice {range : Slice} (value : Node) (hlength : FitsWord node.length)
    (h : node.readLast (.slice range) = .ok (some old)) :
    (writeLast value node (.slice range)).result = .ok (some old) ∨
      ∃ fault, writeLast value node (.slice range) =
        .failed (.invalidAssignment (.slice range) fault) node := by
  cases node with
  | mapping entries => exact .inr ⟨.rangeOfKeys, rfl⟩
  | sequence items =>
    rw [readLast_items] at h
    cases hassign : assignSlice items range value with
    | error fault => exact .inr ⟨fault, writeLast_items_error hassign⟩
    | ok pair =>
      obtain ⟨picked, new⟩ := pair
      refine .inl ?_
      rw [writeLast_items_ok hassign, assignSlice_old hlength hassign, ← h]
      rfl
  | scalar leaf => cases h

/-- A write at the root token is refused, whatever the value is. -/
theorem writeLast_root (value node : Node) :
    writeLast value node .root = .failed (.protectedRoot .write) node := by
  cases node <;> rfl

/-! ## Lens laws -/

section Lens

variable {new : Node} {answer : Option Node}

/-- What is read under a name can be put back. -/
theorem writeLast_readLast_key {name : String}
    (h : node.readLast (.key name) = .ok (some old)) :
    writeLast old node (.key name) = .done (some old) node := by
  cases node with
  | mapping entries =>
    rw [readLast_key, Except.ok.injEq] at h
    rw [writeLast_key, h, Option.getD_some, Entries.put_get? h]
  | sequence items => cases h
  | scalar leaf => cases h

/-- What is read at an index of a sequence can be put back. -/
theorem writeLast_readLast_item {items : List Node} {i : Int64}
    (h : (sequence items).readLast (.index i) = .ok (some old)) :
    writeLast old (sequence items) (.index i) = .done (some old) (sequence items) := by
  cases landing (sequence items) (.index i) with
  | item hindex hitem =>
    rw [readLast_item hindex hitem] at h
    cases h
    rw [writeLast_item hindex hitem]
    congr 1
    exact setChild_child? hitem
  | misfit hsegment hposition hread hmutate =>
    rw [hread] at h
    cases h

/-- A slice of a sequence that is written back changes nothing: as many items as were read take their
own places. -/
theorem writeLast_readLast_slice {items : List Node} {range : Slice}
    (hlength : FitsWord items.length)
    (h : (sequence items).readLast (.slice range) = .ok (some old)) :
    writeLast old (sequence items) (.slice range) = .done (some old) (sequence items) := by
  rw [readLast_items] at h
  cases h
  exact writeLast_items_ok (assignSlice_pick hlength range)

/-- A value that is written under a name is read there. -/
theorem readLast_writeLast_key {name : String}
    (h : writeLast value node (.key name) = .done answer new) :
    new.readLast (.key name) = .ok (some value) := by
  cases node with
  | mapping entries =>
    rw [writeLast_key] at h
    cases h
    rw [readLast_key, Entries.get?_put_self]
  | sequence items => cases h
  | scalar leaf => cases h

/-- A value that is written at an index is read there: as it stands in a sequence, and as the entry
with the old key in a mapping. -/
theorem readLast_writeLast_index {i : Int64}
    (h : writeLast value node (.index i) = .done answer new) :
    (∃ items, node = sequence items ∧ new.readLast (.index i) = .ok (some value)) ∨
      ∃ entries position key child, node = mapping entries ∧
        resolveIndex i entries.length .mapping = .ok position ∧
        entries[position]? = some (key, child) ∧
        new.readLast (.index i) = .ok (some (singleton key value)) := by
  cases landing node (.index i) with
  | @entry entries i position key child hindex hentry =>
    rw [writeLast_entry hindex hentry] at h
    cases h
    obtain ⟨hindex', hentry'⟩ := entry_modify hindex hentry value
    exact .inr ⟨entries, position, key, child, rfl, hindex, hentry,
      readLast_entry hindex' hentry'⟩
  | @item items i position child hindex hitem =>
    rw [writeLast_item hindex hitem] at h
    cases h
    obtain ⟨hindex', hitem'⟩ := item_set hindex value
    exact .inl ⟨items, rfl, readLast_item hindex' hitem'⟩
  | misfit hsegment hposition hread hmutate =>
    have hwrite : writeLast value node (.index i) = .failed _ node := hmutate (.write value)
    rw [hwrite] at h
    cases h

/-- The second of two writes to a name or an index hides the first. -/
theorem writeLast_writeLast (other : Node) (hsingle : segment.isSingle)
    (h : writeLast value node segment = .done answer new) :
    ∃ first second tree, writeLast other new segment = .done first tree ∧
      writeLast other node segment = .done second tree := by
  cases landing node segment with
  | root => cases hsingle
  | key entries name =>
    rw [writeLast_key] at h
    cases h
    have hfirst := writeLast_key (Entries.put name value entries) name other
    rw [Entries.put_put] at hfirst
    exact ⟨_, _, _, hfirst, writeLast_key entries name other⟩
  | @entry entries i position key child hindex hentry =>
    rw [writeLast_entry hindex hentry] at h
    cases h
    obtain ⟨hindex', hentry'⟩ := entry_modify hindex hentry value
    have htree := setChild_setChild (mapping entries) value other position
    refine ⟨some (singleton key value), some (singleton key child),
      (mapping entries).setChild position other, ?_, writeLast_entry hindex hentry other⟩
    rw [← htree]
    exact writeLast_entry hindex' hentry' other
  | @item items i position child hindex hitem =>
    rw [writeLast_item hindex hitem] at h
    cases h
    obtain ⟨hindex', hitem'⟩ := item_set hindex value
    have htree := setChild_setChild (sequence items) value other position
    refine ⟨some value, some child, (sequence items).setChild position other, ?_,
      writeLast_item hindex hitem other⟩
    rw [← htree]
    exact writeLast_item hindex' hitem' other
  | entries entries range => cases hsingle
  | items items range => cases hsingle
  | misfit hsegment hposition hread hmutate =>
    have hwrite : writeLast value node segment = .failed _ node := hmutate (.write value)
    rw [hwrite] at h
    cases h

end Lens

/-! ## Deleting -/

/-- Deleting a slice of a mapping answers with what the slice reads. -/
theorem result_deleteLast_entries {entries : Entries Node} (h : (mapping entries).WellFormed)
    (range : Slice) :
    (deleteLast (mapping entries) (.slice range)).result =
      (mapping entries).readLast (.slice range) := by
  have hlength : FitsWord entries.length := h.sized.fitsWord_length
  have hdistinct : Entries.Distinct entries := ((distinct_mapping entries).mp h.distinct).1
  unfold deleteLast readLast
  simp only [Change.done, removed_selected hlength hdistinct]

/-- A deletion answers as the read of the same segment, except for the root token. -/
theorem result_deleteLast (hsegment : segment ≠ .root)
    (hslice : ∀ range, segment = .slice range → node.WellFormed) :
    (deleteLast node segment).result = node.readLast segment := by
  cases landing node segment with
  | root => exact absurd rfl hsegment
  | key entries name => rfl
  | entry hindex hentry =>
    rw [readLast_entry hindex hentry, deleteLast_entry hindex hentry]
    rfl
  | item hindex hitem =>
    rw [readLast_item hindex hitem, deleteLast_item hindex hitem]
    rfl
  | entries entries range => exact result_deleteLast_entries (hslice range rfl) range
  | items items range => rfl
  | misfit _ _ hread hmutate =>
    have hdelete : deleteLast node segment = .failed _ node := hmutate .delete
    rw [hread, hdelete]
    rfl

/-- A deletion at the root token is refused. -/
theorem deleteLast_root (node : Node) :
    deleteLast node .root = .failed (.protectedRoot .delete) node := by
  cases node <;> rfl

end Node

end TreePath

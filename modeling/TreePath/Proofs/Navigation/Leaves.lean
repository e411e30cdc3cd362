import TreePath.Access
import TreePath.Proofs.Navigation.ReadDecides
import TreePath.Proofs.Outcome

/-!
# The leaves of what is read

Reading invents nothing.  What a path reads is a part of the tree, a mapping of some of its entries,
or a sequence of some of its items, so each of its leaves is a leaf of the tree (`Holds.of_read`).
-/

set_option autoImplicit false

namespace TreePath

namespace Node

variable {root node found : Node} {value : Scalar} {segment : Segment}

/-- The leaves of what the last segment of a path reads stand in the node that it is applied to. -/
theorem Holds.of_readLast (h : found.Holds value)
    (hread : node.readLast segment = .ok (some found)) : node.Holds value := by
  cases landing node segment with
  | root =>
    rw [readLast_root] at hread
    cases hread
    exact h
  | key entries name =>
    rw [readLast_key, Except.ok.injEq] at hread
    exact holds_mapping.mpr ⟨_, Entries.mem_of_get? hread, h⟩
  | entry hindex hentry =>
    rw [readLast_entry hindex hentry] at hread
    cases hread
    rw [singleton, holds_mapping] at h
    obtain ⟨entry, hsingle, hvalue⟩ := h
    obtain rfl := List.mem_singleton.mp hsingle
    exact holds_mapping.mpr ⟨_, List.mem_of_getElem? hentry, hvalue⟩
  | item hindex hitem =>
    rw [readLast_item hindex hitem] at hread
    cases hread
    exact holds_sequence.mpr ⟨_, List.mem_of_getElem? hitem, h⟩
  | entries entries range =>
    cases hread
    obtain ⟨entry, hcollected, hvalue⟩ := holds_mapping.mp h
    obtain ⟨picked, hpicked, heq⟩ := Entries.exists_mem_of_mem_ofList hcollected
    exact holds_mapping.mpr ⟨picked, mem_of_mem_pick hpicked, heq ▸ hvalue⟩
  | items items range =>
    cases hread
    obtain ⟨item, hpicked, hvalue⟩ := holds_sequence.mp h
    exact holds_sequence.mpr ⟨item, mem_of_mem_pick hpicked, hvalue⟩
  | misfit hsegment hposition hmisfit hmutate =>
    rw [hmisfit] at hread
    cases hread

/-- **The leaves of what is read stand in the tree.** -/
theorem Holds.of_read {path : Path} (h : found.Holds value)
    (hread : root.read path = .ok (some found)) : root.Holds value := by
  obtain rfl | ⟨front, last, rfl⟩ := List.eq_nil_or_concat path
  · cases hread
    exact h
  · rw [List.concat_eq_append] at hread
    obtain ⟨address, target, hleads, hlast⟩ := leads_of_read_some hread
    exact (h.of_readLast hlast).of_subtree? hleads.subtree?

/-- A path in text brings no leaf that is not in the tree. -/
theorem Holds.of_readText {text : String} (h : found.Holds value)
    (hread : root.readText text = .ok (some found)) : root.Holds value := by
  obtain ⟨path, -, hread⟩ := exists_of_bind_eq_ok hread
  exact h.of_read hread

end Node

end TreePath

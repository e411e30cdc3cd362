import TreePath.Proofs.Json.Value
import TreePath.Proofs.Navigation.LensLaws

/-!
# How deep a write makes a tree

A write puts its value below one node, either as a child of it or at the end of names that it builds
there (`exists_place_of_write`).  The value is then as deep in the tree as the path has levels.  So
the depth of the new tree is known up to the depth of the old one (`depth_write`), and a tree without
floats gets none (`floatFree_write`).
-/

set_option autoImplicit false

namespace TreePath

/-- The number of segments of a path that go down, which are all but the root tokens. -/
def Path.levels : Path → Nat
  | [] => 0
  | .root :: rest => levels rest
  | _ :: rest => levels rest + 1

namespace Path

/-- The levels of two paths one after the other add up. -/
theorem levels_append (front back : Path) : levels (front ++ back) = levels front + levels back := by
  induction front with
  | nil => simp [levels]
  | cons segment rest ih =>
    cases segment <;> simp [levels, ih] <;> omega

/-- A path without brackets goes down once for each of its names. -/
theorem length_names {path : Path} (h : hasNoBracket path) : (names path).length = levels path := by
  induction path with
  | nil => rfl
  | cons segment rest ih =>
    rw [hasNoBracket, List.all_cons, Bool.and_eq_true] at h
    have hrest := ih h.2
    cases segment with
    | root => simpa [names, levels] using hrest
    | key name => simp [names, levels, hrest]
    | index i => simp [Segment.isPositional] at h
    | slice range => simp [Segment.isPositional] at h

end Path

namespace Node

open TreePath.Path (names levels)

variable {root node target child value old new inner : Node} {path : Path} {last : Segment}
  {address : Address} {position d : Nat} {entries : Entries Node} {items : List Node}

/-! ## The depth of a tree -/

/-- The depth below a mapping is the greatest depth of its values. -/
theorem depthOfEntries_le : depthOfEntries entries ≤ d ↔ ∀ entry ∈ entries, entry.2.depth ≤ d := by
  induction entries with
  | nil => simp [depthOfEntries]
  | cons entry rest ih => rw [depthOfEntries, Nat.max_le, ih, List.forall_mem_cons]

/-- The depth below a sequence is the greatest depth of its items. -/
theorem depthOfItems_le : depthOfItems items ≤ d ↔ ∀ item ∈ items, item.depth ≤ d := by
  induction items with
  | nil => simp [depthOfItems]
  | cons item rest ih => rw [depthOfItems, Nat.max_le, ih, List.forall_mem_cons]

/-- A tree is one level deeper than its children at most. -/
theorem depth_le_succ_iff (node : Node) (d : Nat) :
    node.depth ≤ d + 1 ↔
      ∀ position child, node.child? position = some child → child.depth ≤ d := by
  cases node with
  | mapping entries =>
    rw [forall_child?_mapping, depth, Nat.add_le_add_iff_right, depthOfEntries_le]
  | sequence items =>
    rw [forall_child?_sequence, depth, Nat.add_le_add_iff_right, depthOfItems_le]
  | scalar value => simp [child?]

/-- A child is less deep than its parent. -/
theorem depth_lt_of_child? (h : node.child? position = some child) : child.depth < node.depth := by
  have hdepth : node.depth ≠ 0 := by
    cases node with
    | mapping entries => simp [depth]
    | sequence items => simp [depth]
    | scalar value => simp [child?] at h
  have hparent : node.depth ≤ (node.depth - 1) + 1 := by omega
  have hchild := (depth_le_succ_iff node _).mp hparent position child h
  omega

/-- A node below the root is so much less deep than the root. -/
theorem depth_subtree? (h : root.subtree? address = some target) :
    address.length + target.depth ≤ root.depth := by
  induction address generalizing root with
  | nil =>
    cases h
    simp
  | cons position rest ih =>
    obtain ⟨child, hchild, hrest⟩ := exists_child?_of_subtree? h
    have hlt := depth_lt_of_child? hchild
    have hbelow := ih hrest
    rw [List.length_cons]
    omega

/-- A node with another child is at most as deep as it was or as the new child makes it. -/
theorem depth_setChild_le (hchild : node.child? position = some child) (new : Node) :
    (node.setChild position new).depth ≤ max node.depth (new.depth + 1) := by
  obtain ⟨d, hd⟩ : ∃ d, max node.depth (new.depth + 1) = d + 1 := ⟨max (node.depth - 1) new.depth, by
    have hlt := depth_lt_of_child? hchild
    omega⟩
  rw [hd, depth_le_succ_iff]
  intro place other hother
  by_cases hplace : position = place
  · subst hplace
    rw [child?_setChild_self new hchild] at hother
    cases hother
    omega
  · rw [child?_setChild_of_ne new hplace] at hother
    have hlt := depth_lt_of_child? hother
    omega

/-- A replacement makes a tree as deep as the new node reaches down, at most. -/
theorem depth_replaceAt_le (h : root.subtree? address = some target) (new : Node) :
    (root.replaceAt address new).depth ≤ max root.depth (address.length + new.depth) := by
  induction address generalizing root with
  | nil =>
    rw [replaceAt_nil, List.length_nil]
    omega
  | cons position rest ih =>
    obtain ⟨child, hchild, hrest⟩ := exists_child?_of_subtree? h
    have hlt := depth_lt_of_child? hchild
    have hbelow := ih hrest
    have hset := depth_setChild_le hchild (child.replaceAt rest new)
    rw [replaceAt_cons hchild, List.length_cons]
    omega

/-- Names around a value make it deeper by one each. -/
theorem depth_nest (keys : List String) (value : Node) :
    (nest keys value).depth = keys.length + value.depth := by
  induction keys with
  | nil => simp [nest]
  | cons name rest ih =>
    simp only [nest, singleton, depth, depthOfEntries, ih, List.length_cons, Nat.max_zero]
    omega

/-- The address that a path leads to has one position for each level of the path. -/
theorem Leads.length (h : Leads root path address target) : address.length = levels path := by
  induction h with
  | here node => rfl
  | root _ ih => exact ih
  | @down node child target segment path position address hposition hchild _ ih =>
    have hsegment := ne_root_of_position hposition
    cases segment with
    | root => exact absurd rfl hsegment
    | key name => simp [levels, ih]
    | index i => simp [levels, ih]
    | slice range => simp [levels, ih]

/-! ## Trees without floats -/

/-- A tree is without floats when its root is no float and its children are without them. -/
theorem floatFree_iff (node : Node) :
    node.FloatFree ↔ (∀ x, node ≠ ofFloat x) ∧
      ∀ position child, node.child? position = some child → child.FloatFree :=
  forall_subtree?_iff node

/-- A replacement by a node without floats leaves a tree without floats; an address that leaves the
tree changes nothing. -/
theorem FloatFree.replaceAt (h : root.FloatFree) (hnew : new.FloatFree) (address : Address) :
    (root.replaceAt address new).FloatFree := by
  induction address generalizing root with
  | nil => exact hnew
  | cons position rest ih =>
    cases hchild : root.child? position with
    | none => rwa [Node.replaceAt, hchild]
    | some child =>
      obtain ⟨hroot, hchildren⟩ := (floatFree_iff root).mp h
      have hbelow := ih (hchildren position child hchild)
      rw [replaceAt_cons hchild]
      refine (floatFree_iff _).mpr ⟨?_, ?_⟩
      · intro x heq
        have hparent := child?_setChild_self (child.replaceAt rest new) hchild
        rw [heq] at hparent
        cases hparent
      · intro place other hother
        by_cases hplace : position = place
        · subst hplace
          rw [child?_setChild_self _ hchild] at hother
          cases hother
          exact hbelow
        · rw [child?_setChild_of_ne _ hplace] at hother
          exact hchildren place other hother

/-- Names around a value without floats bring none. -/
theorem floatFree_nest (keys : List String) (h : value.FloatFree) : (nest keys value).FloatFree := by
  induction keys with
  | nil => exact h
  | cons name rest ih => simpa [nest, singleton] using ih

/-! ## A value put into a node -/

/-- A node has the value among its children, and otherwise only children of the old node. -/
structure Receives (value old new : Node) : Prop where
  inside : ∃ position, new.child? position = some value
  others : ∀ position child, new.child? position = some child →
    child = value ∨ ∃ place, old.child? place = some child

/-- A node that has received a value is at least one level deeper than it. -/
theorem Receives.le_depth (h : Receives value old new) : value.depth + 1 ≤ new.depth := by
  obtain ⟨position, hposition⟩ := h.inside
  exact depth_lt_of_child? hposition

/-- A node that has received a value is at most as deep as it was or as the value makes it. -/
theorem Receives.depth_le (h : Receives value old new) :
    new.depth ≤ max old.depth (value.depth + 1) := by
  have hbound : max old.depth (value.depth + 1) = max (old.depth - 1) value.depth + 1 := by omega
  rw [hbound, depth_le_succ_iff]
  intro position child hchild
  rcases h.others position child hchild with rfl | ⟨place, hplace⟩
  · omega
  · have hlt := depth_lt_of_child? hplace
    omega

/-- A node without floats that has received a value without floats has none. -/
theorem Receives.floatFree (h : Receives value old new) (hvalue : value.FloatFree)
    (hold : old.FloatFree) : new.FloatFree := by
  refine (floatFree_iff new).mpr ⟨?_, ?_⟩
  · rintro x rfl
    obtain ⟨position, hposition⟩ := h.inside
    cases hposition
  · intro position child hchild
    rcases h.others position child hchild with rfl | ⟨place, hplace⟩
    · exact hvalue
    · exact ((floatFree_iff old).mp hold).2 place child hplace

/-- A node whose child is replaced has received the new child. -/
theorem receives_setChild (hchild : node.child? position = some child) (value : Node) :
    Receives value node (node.setChild position value) where
  inside := ⟨position, child?_setChild_self value hchild⟩
  others := by
    intro place other hother
    by_cases hplace : position = place
    · subst hplace
      rw [child?_setChild_self value hchild] at hother
      exact .inl (Option.some.inj hother).symm
    · rw [child?_setChild_of_ne value hplace] at hother
      exact .inr ⟨place, hother⟩

/-- A mapping has received a value when each of its entries has this value or was there before, and
one of them has it. -/
theorem receives_mapping {changed : Entries Node} (hinside : ∃ name, (name, value) ∈ changed)
    (hothers : ∀ entry ∈ changed, entry.2 = value ∨ entry ∈ entries) :
    Receives value (mapping entries) (mapping changed) where
  inside := by
    obtain ⟨name, hmem⟩ := hinside
    obtain ⟨position, hposition⟩ := List.getElem?_of_mem hmem
    exact ⟨position, by simp [child?, hposition]⟩
  others := by
    intro position child hchild
    simp only [child?, Option.map_eq_some_iff] at hchild
    obtain ⟨entry, hentry, rfl⟩ := hchild
    rcases hothers entry (List.mem_of_getElem? hentry) with hvalue | hmem
    · exact .inl hvalue
    · obtain ⟨place, hplace⟩ := List.getElem?_of_mem hmem
      exact .inr ⟨place, by simp [child?, hplace]⟩

/-- A mapping in which a value is put under a name has received it. -/
theorem receives_put (entries : Entries Node) (name : String) (value : Node) :
    Receives value (mapping entries) (mapping (Entries.put name value entries)) := by
  refine receives_mapping ⟨name, ?_⟩ fun entry hentry => Entries.mem_put hentry
  exact Entries.mem_of_get? (Entries.get?_put_self name value entries)

/-- A mapping to which a value is appended under a name has received it. -/
theorem receives_append (entries : Entries Node) (name : String) (value : Node) :
    Receives value (mapping entries) (mapping (entries ++ [(name, value)])) := by
  refine receives_mapping ⟨name, by simp⟩ ?_
  intro entry hentry
  rcases List.mem_append.mp hentry with hmem | hlast
  · exact .inr hmem
  · rw [List.mem_singleton.mp hlast]
    exact .inl rfl

/-- What the last segment of a write changes has received the value, unless the segment is a slice,
which stores the items of the value and not the value itself. -/
theorem receives_writeLast {answer : Option Node} (hsingle : last.isSingle)
    (h : writeLast value target last = .done answer new) : Receives value target new := by
  cases landing target last with
  | root => cases hsingle
  | key entries name =>
    rw [writeLast_key] at h
    cases h
    exact receives_put entries name value
  | @entry entries i position key child hindex hentry =>
    rw [writeLast_entry hindex hentry] at h
    cases h
    exact receives_setChild (show (mapping entries).child? position = some child by
      simp [child?, hentry]) value
  | @item items i position child hindex hitem =>
    rw [writeLast_item hindex hitem] at h
    cases h
    exact receives_setChild (show (sequence items).child? position = some child from hitem) value
  | entries entries range => cases hsingle
  | items items range => cases hsingle
  | misfit hsegment hposition hread hmutate =>
    have hwrite : writeLast value target last = .failed _ target := hmutate (.write value)
    rw [hwrite] at h
    cases h

/-! ## Writes -/

/-- A write that succeeds puts its value into one node of the tree, at the end of the names that it
builds there, and so as deep as the path has levels. -/
theorem exists_place_of_write (hsingle : last.isSingle)
    (h : write value root (path ++ [last]) = .done old new) :
    ∃ address target changed keys, root.subtree? address = some target ∧
      new = root.replaceAt address changed ∧ Receives (nest keys value) target changed ∧
      address.length + (keys.length + 1) = levels (path ++ [last]) := by
  have hlast : levels [last] = 1 := by cases last <;> first | rfl | cases hsingle
  rcases write_done_cases h with
    ⟨address, target, answer, changed, hleads, hchanged, rfl⟩ |
    ⟨front, name, back, address, entries, habsent, hbracket, hend, rfl⟩
  · refine ⟨address, target, changed, [], hleads.subtree?, rfl,
      receives_writeLast hsingle hchanged, ?_⟩
    rw [Path.levels_append, hleads.length, hlast]
    rfl
  · refine ⟨address, mapping entries, _, names back, habsent.leads.subtree?, rfl,
      receives_append entries name _, ?_⟩
    rw [habsent.path_eq, Path.levels_append, habsent.leads.length, Path.length_names hbracket]
    rfl

/-- **A write makes a tree as deep as the value reaches down**, or leaves it as deep as it was. -/
theorem depth_write (hsingle : last.isSingle)
    (h : write value root (path ++ [last]) = .done old new) :
    levels (path ++ [last]) + value.depth ≤ new.depth ∧
      new.depth ≤ max root.depth (levels (path ++ [last]) + value.depth) := by
  obtain ⟨address, target, changed, keys, htarget, rfl, hreceives, hlength⟩ :=
    exists_place_of_write hsingle h
  have hreached := depth_subtree? (subtree?_replaceAt_self htarget changed)
  have hbound := depth_replaceAt_le htarget changed
  have hbelow := depth_subtree? htarget
  have hleast := hreceives.le_depth
  have hmost := hreceives.depth_le
  rw [depth_nest] at hleast hmost
  omega

/-- **A write of a value without floats leaves no floats** where there were none. -/
theorem floatFree_write (hsingle : last.isSingle) (hroot : root.FloatFree)
    (hvalue : value.FloatFree) (h : write value root (path ++ [last]) = .done old new) :
    new.FloatFree := by
  obtain ⟨address, target, changed, keys, htarget, rfl, hreceives, -⟩ :=
    exists_place_of_write hsingle h
  have htargetFree : target.FloatFree := by
    intro place node hnode
    exact hroot (address ++ place) node (by rw [subtree?_append htarget, hnode])
  exact hroot.replaceAt (hreceives.floatFree (floatFree_nest keys hvalue) htargetFree) address

end Node

end TreePath

import TreePath.Proofs.Address
import TreePath.Proofs.Entries
import TreePath.Proofs.Navigation.Landing

/-!
# The way of a path

The front of a path leads from the root of a tree down to a node, and the segments behind it are
applied there.  On the way there are three ends: the front leads to a node (`Leads`), it meets a
mapping that has no entry under the next name (`FirstAbsent`), or one of its segments does not apply
to the node that it meets (`Blocked`).  `leads_or_absent_or_blocked` says that there is no other.

Reading and changing a tree are both settled by that end.  Behind a front that leads to a node, a
path reads what its back reads in that node (`read_append`), and it changes the tree by putting the
changed node back at its address (`mutate_append`).  Behind a blocked front everything fails with
the same error and the tree stays (`Blocked.read`, `Blocked.mutate`).  At a name that is not there
reads and deletions come back with nothing (`FirstAbsent.read`, `FirstAbsent.delete`).
-/

set_option autoImplicit false

namespace TreePath

namespace Change

variable {α β : Type}

/-- A change within a node that is within another one is put back from the inside to the outside. -/
@[simp] theorem within_within (change : Change α) (inner outer : Node → Node) :
    (change.within inner).within outer = change.within fun tree => outer (inner tree) := rfl

/-- A success puts its tree back in its place. -/
@[simp] theorem done_within (result : α) (tree : Node) (place : Node → Node) :
    (done result tree).within place = done result (place tree) := rfl

/-- A failure puts what it left in the tree back in its place, too. -/
@[simp] theorem failed_within (error : PathError) (tree : Node) (place : Node → Node) :
    (failed error tree : Change α).within place = failed error (place tree) := rfl

/-- The place of a change does not matter to its result. -/
@[simp] theorem result_within (change : Change α) (place : Node → Node) :
    (change.within place).result = change.result := rfl

/-- The tree of a change is put in its place. -/
@[simp] theorem tree_within (change : Change α) (place : Node → Node) :
    (change.within place).tree = place change.tree := rfl

/-- A function on the result and a place for the tree can be applied in either order. -/
@[simp] theorem map_within (change : Change α) (place : Node → Node) (f : α → β) :
    (change.within place).map f = (change.map f).within place := rfl

/-- A function on the result is applied to the result of a success. -/
@[simp] theorem done_map (result : α) (tree : Node) (f : α → β) :
    (done result tree).map f = done (f result) tree := rfl

/-- A function on the result does not see a failure. -/
@[simp] theorem failed_map (error : PathError) (tree : Node) (f : α → β) :
    (failed error tree).map f = failed error tree := rfl

/-- A success behind a function on the result is a success in front of it. -/
theorem eq_done_of_map {change : Change α} {f : α → β} {result : β} {tree : Node}
    (h : change.map f = .done result tree) : ∃ answer, change = .done answer tree := by
  obtain ⟨outcome, left⟩ := change
  cases outcome with
  | error e => cases h
  | ok answer =>
    cases h
    exact ⟨answer, rfl⟩

/-- A success within a larger tree is a success inside, whose tree was put in its place. -/
theorem eq_done_of_within {change : Change α} {place : Node → Node} {result : α} {tree : Node}
    (h : change.within place = .done result tree) :
    ∃ inner, change = .done result inner ∧ place inner = tree := by
  obtain ⟨outcome, left⟩ := change
  cases h
  exact ⟨left, rfl, rfl⟩

end Change

namespace Node

/-! ## One segment in the middle of a path -/

section Step

variable {node child : Node} {segment : Segment} {position : Nat}

/-- A segment that leads to a child, or misses one, is not the root token. -/
theorem ne_root_of_position {target : Option Nat} (h : node.position segment = .ok target) :
    segment ≠ .root := by
  rintro rfl
  cases node <;> cases h

/-- A position that a segment leads to holds a child. -/
theorem exists_child?_of_position (h : node.position segment = .ok (some position)) :
    ∃ child, node.child? position = some child := by
  apply exists_child?
  cases landing node segment with
  | root => exact absurd rfl (ne_root_of_position h)
  | key entries name =>
    simp only [Node.position, Except.ok.injEq] at h
    exact Entries.lt_length_of_position? h
  | entry hindex hentry =>
    rw [position_entry hindex] at h
    cases h
    exact lt_of_resolveIndex hindex
  | item hindex hitem =>
    rw [position_item hindex] at h
    cases h
    exact lt_of_resolveIndex hindex
  | entries entries range => cases h
  | items items range => cases h
  | misfit hsegment hposition hread hmutate =>
    rw [hposition] at h
    cases h

/-- Only a name that a mapping does not have leads to no position without an error. -/
theorem eq_key_of_position_eq_none (h : node.position segment = .ok none) :
    ∃ name entries, segment = .key name ∧ node = mapping entries ∧ name ∉ Entries.keys entries := by
  cases landing node segment with
  | root => exact absurd rfl (ne_root_of_position h)
  | key entries name =>
    simp only [Node.position, Except.ok.injEq] at h
    exact ⟨name, entries, rfl, rfl, Entries.position?_eq_none_iff.mp h⟩
  | entry hindex hentry =>
    rw [position_entry hindex] at h
    cases h
  | item hindex hitem =>
    rw [position_item hindex] at h
    cases h
  | entries entries range => cases h
  | items items range => cases h
  | misfit hsegment hposition hread hmutate =>
    rw [hposition] at h
    cases h

/-- A name that the mapping does not have leads to no position, and this is no error. -/
theorem position_key_of_not_mem {entries : Entries Node} {name : String}
    (h : name ∉ Entries.keys entries) : (mapping entries).position (.key name) = .ok none := by
  rw [Node.position, Entries.position?_eq_none_iff.mpr h]

/-- Where a segment leads does not depend on the children. -/
theorem position_setChild (node : Node) (segment : Segment) (position : Nat) (new : Node) :
    (node.setChild position new).position segment = node.position segment := by
  cases node with
  | mapping entries =>
    have hkeys := keys?_setChild (mapping entries) new position
    have hlength := length_setChild (mapping entries) new position
    simp only [setChild, keys?, Option.some.injEq, length] at hkeys hlength
    cases segment with
    | root => rfl
    | key name => simp only [setChild, Node.position, Entries.position?_eq_findIdx?, hkeys]
    | index i => simp only [setChild, Node.position, hlength]
    | slice range => rfl
  | sequence items =>
    cases segment with
    | root => rfl
    | key name => rfl
    | index i => simp only [setChild, Node.position, List.length_set]
    | slice range => rfl
  | scalar value => rfl

end Step

/-! ## Reading and changing, one segment at a time -/

section Unfold

variable {node child : Node} {segment : Segment} {rest : Path} {position : Nat} {e : PathError}

/-- A root token in front of a path changes nothing about a read. -/
theorem read_root_cons (node : Node) (h : rest ≠ []) :
    node.read (.root :: rest) = node.read rest := by
  cases rest with
  | nil => exact absurd rfl h
  | cons next more => rfl

/-- A root token in front of a path changes nothing about a write or a deletion. -/
theorem mutate_root_cons (mutation : Mutation) (node : Node) (h : rest ≠ []) :
    mutate mutation node (.root :: rest) = mutate mutation node rest := by
  cases rest with
  | nil => exact absurd rfl h
  | cons next more => rfl

/-- A read of more than one segment goes by the position of the first. -/
theorem read_cons (node : Node) (hsegment : segment ≠ .root) (hrest : rest ≠ []) :
    node.read (segment :: rest) =
      match node.position segment with
      | .error e => .error e
      | .ok none => .ok none
      | .ok (some position) =>
        match node.child? position with
        | some child => child.read rest
        | none => .ok none := by
  cases rest with
  | nil => exact absurd rfl hrest
  | cons next more =>
    cases segment with
    | root => exact absurd rfl hsegment
    | key name => rfl
    | index i => rfl
    | slice range => rfl

/-- A mutation of more than one segment goes by the position of the first. -/
theorem mutate_cons (mutation : Mutation) (node : Node) (hsegment : segment ≠ .root)
    (hrest : rest ≠ []) :
    mutate mutation node (segment :: rest) =
      match node.position segment with
      | .error e => .failed e node
      | .ok (some position) =>
        match node.child? position with
        | some child => (mutate mutation child rest).within (node.setChild position)
        | none => .done none node
      | .ok none =>
        match mutation with
        | .write _ => (mutate mutation emptyMapping rest).within (node.appendEntry segment)
        | .delete => .done none node := by
  cases rest with
  | nil => exact absurd rfl hrest
  | cons next more =>
    cases segment with
    | root => exact absurd rfl hsegment
    | key name => rfl
    | index i => rfl
    | slice range => rfl

/-- A segment that leads to a child reads what the rest of the path reads in this child. -/
theorem read_down (hposition : node.position segment = .ok (some position))
    (hchild : node.child? position = some child) (hrest : rest ≠ []) :
    node.read (segment :: rest) = child.read rest := by
  rw [read_cons node (ne_root_of_position hposition) hrest, hposition]
  simp only [hchild]

/-- A segment that leads to a child changes it by the rest of the path and puts it back in its place.
-/
theorem mutate_down (mutation : Mutation) (hposition : node.position segment = .ok (some position))
    (hchild : node.child? position = some child) (hrest : rest ≠ []) :
    mutate mutation node (segment :: rest) =
      (mutate mutation child rest).within (node.setChild position) := by
  rw [mutate_cons mutation node (ne_root_of_position hposition) hrest, hposition]
  simp only [hchild]

/-- A name or an index that does not fit a node fails in front of every path. -/
theorem read_of_position_error (hsingle : segment.isSingle) (h : node.position segment = .error e)
    (rest : Path) : node.read (segment :: rest) = .error e := by
  by_cases hrest : rest = []
  · subst hrest
    exact (misfit_of_position_error hsingle h).1
  · have hsegment : segment ≠ .root := by
      rintro rfl
      cases hsingle
    rw [read_cons node hsegment hrest, h]

/-- What does not fit a node changes nothing. -/
theorem mutate_of_position_error (mutation : Mutation) (hsingle : segment.isSingle)
    (h : node.position segment = .error e) (rest : Path) :
    mutate mutation node (segment :: rest) = .failed e node := by
  by_cases hrest : rest = []
  · subst hrest
    exact (misfit_of_position_error hsingle h).2 mutation
  · have hsegment : segment ≠ .root := by
      rintro rfl
      cases hsingle
    rw [mutate_cons mutation node hsegment hrest, h]

end Unfold

/-! ## The three ends of a way -/

/-- The segments of a path lead from a node to the one at an address below it. -/
inductive Leads : Node → Path → Address → Node → Prop
  | here (node : Node) : Leads node [] [] node
  | root {node target : Node} {path : Path} {address : Address} :
      Leads node path address target → Leads node (.root :: path) address target
  | down {node child target : Node} {segment : Segment} {path : Path} {position : Nat}
      {address : Address} :
      node.position segment = .ok (some position) → node.child? position = some child →
      Leads child path address target → Leads node (segment :: path) (position :: address) target

/-- A segment of the path does not apply to the node that it meets. -/
inductive Blocked : Node → Path → PathError → Prop
  | here {node : Node} {segment : Segment} {path : Path} {e : PathError} :
      segment ≠ .root → node.position segment = .error e → Blocked node (segment :: path) e
  | root {node : Node} {path : Path} {e : PathError} :
      Blocked node path e → Blocked node (.root :: path) e
  | down {node child : Node} {segment : Segment} {path : Path} {position : Nat} {e : PathError} :
      node.position segment = .ok (some position) → node.child? position = some child →
      Blocked child path e → Blocked node (segment :: path) e

/-- The first name of a path that is not there: the segments in front of it lead to a mapping that
does not have it. -/
structure FirstAbsent (root : Node) (path front : Path) (name : String) (back : Path)
    (address : Address) (entries : Entries Node) : Prop where
  path_eq : path = front ++ .key name :: back
  leads : Leads root front address (mapping entries)
  absent : name ∉ Entries.keys entries

section Ends

variable {root target : Node} {path front back : Path} {address : Address} {name : String}
  {entries : Entries Node} {e : PathError}

/-- A root token in front moves neither the first absent name nor the mapping in which it is absent.
-/
theorem FirstAbsent.skip_root (h : FirstAbsent root path front name back address entries) :
    FirstAbsent root (.root :: path) (.root :: front) name back address entries where
  path_eq := congrArg (.root :: ·) h.path_eq
  leads := .root h.leads
  absent := h.absent

/-- The first absent name below a child is that of the path which leads through the child, with the
address one longer. -/
theorem FirstAbsent.down {child : Node} {segment : Segment} {position : Nat}
    (hposition : root.position segment = .ok (some position))
    (hchild : root.child? position = some child)
    (h : FirstAbsent child path front name back address entries) :
    FirstAbsent root (segment :: path) (segment :: front) name back (position :: address)
      entries where
  path_eq := congrArg (segment :: ·) h.path_eq
  leads := .down hposition hchild h.leads
  absent := h.absent

/-- More segments behind a path do not change which of its names is the first absent one. -/
theorem FirstAbsent.append (h : FirstAbsent root path front name back address entries)
    (more : Path) :
    FirstAbsent root (path ++ more) front name (back ++ more) address entries where
  path_eq := by rw [h.path_eq, List.append_assoc, List.cons_append]
  leads := h.leads
  absent := h.absent

/-- Every path leads to a node, meets an absent name or is blocked. -/
theorem leads_or_absent_or_blocked (root : Node) (path : Path) :
    (∃ address target, Leads root path address target) ∨
      (∃ front name back address entries,
        FirstAbsent root path front name back address entries) ∨
      ∃ e, Blocked root path e := by
  induction path generalizing root with
  | nil => exact .inl ⟨[], root, .here root⟩
  | cons segment rest ih =>
    -- The root token has no position, so it is set apart before the position decides.
    by_cases hroot : segment = .root
    · subst hroot
      rcases ih root with ⟨address, target, h⟩ | ⟨front, name, back, address, entries, h⟩ | ⟨e, h⟩
      · exact .inl ⟨address, target, .root h⟩
      · exact .inr (.inl ⟨.root :: front, name, back, address, entries, h.skip_root⟩)
      · exact .inr (.inr ⟨e, .root h⟩)
    · cases hposition : root.position segment with
      | error e => exact .inr (.inr ⟨e, .here hroot hposition⟩)
      | ok found =>
        cases found with
        | none =>
          obtain ⟨name, entries, rfl, rfl, habsent⟩ := eq_key_of_position_eq_none hposition
          exact .inr (.inl ⟨[], name, rest, [], entries, rfl, .here _, habsent⟩)
        | some position =>
          obtain ⟨child, hchild⟩ := exists_child?_of_position hposition
          rcases ih child with
            ⟨address, target, h⟩ | ⟨front, name, back, address, entries, h⟩ | ⟨e, h⟩
          · exact .inl ⟨position :: address, target, .down hposition hchild h⟩
          · exact .inr (.inl ⟨segment :: front, name, back, position :: address, entries,
              h.down hposition hchild⟩)
          · exact .inr (.inr ⟨e, .down hposition hchild h⟩)

/-- The node that a path leads to is the one at the address. -/
theorem Leads.subtree? (h : Leads root path address target) :
    root.subtree? address = some target := by
  induction h with
  | here node => rfl
  | root _ ih => exact ih
  | down _ hchild _ ih => rw [subtree?_cons hchild, ih]

/-- A path leads to one place. -/
theorem Leads.unique {address₁ address₂ : Address} {target₁ target₂ : Node}
    (h₁ : Leads root path address₁ target₁) (h₂ : Leads root path address₂ target₂) :
    address₁ = address₂ ∧ target₁ = target₂ := by
  induction h₁ generalizing address₂ with
  | here node =>
    cases h₂
    exact ⟨rfl, rfl⟩
  | root _ ih =>
    cases h₂ with
    | root h₂ => exact ih h₂
    | down hposition _ _ => exact absurd rfl (ne_root_of_position hposition)
  | down hposition₁ hchild₁ _ ih =>
    cases h₂ with
    | root _ => exact absurd rfl (ne_root_of_position hposition₁)
    | down hposition₂ hchild₂ h₂ =>
      rw [hposition₁] at hposition₂
      cases hposition₂
      rw [hchild₁] at hchild₂
      cases hchild₂
      obtain ⟨haddress, htarget⟩ := ih h₂
      exact ⟨congrArg _ haddress, htarget⟩

/-- A path that leads on from where another one ends continues its way. -/
theorem Leads.append {middle : Node} {further : Address} (h : Leads root front address middle)
    (hback : Leads middle back further target) :
    Leads root (front ++ back) (address ++ further) target := by
  induction h with
  | here node => exact hback
  | root _ ih => exact .root (ih hback)
  | down hposition hchild _ ih => exact .down hposition hchild (ih hback)

/-- A path leads to the same address whatever is put there. -/
theorem Leads.replaceAt (h : Leads root path address target) (new : Node) :
    Leads (root.replaceAt address new) path address new := by
  induction h with
  | here node => exact .here new
  | root _ ih => exact .root ih
  | down hposition hchild _ ih =>
    rw [replaceAt_cons hchild]
    refine .down ?_ (child?_setChild_self _ hchild) ih
    rw [position_setChild, hposition]

/-! ## What the ends decide -/

/-- Behind a front that leads to a node, a path reads what its back reads there. -/
theorem read_append (h : Leads root front address target) (hback : back ≠ []) :
    root.read (front ++ back) = target.read back := by
  induction h with
  | here node => rfl
  | root _ ih =>
    rw [List.cons_append, read_root_cons _ (List.append_ne_nil_of_right_ne_nil _ hback), ih]
  | down hposition hchild _ ih =>
    rw [List.cons_append,
      read_down hposition hchild (List.append_ne_nil_of_right_ne_nil _ hback), ih]

/-- Behind a front that leads to a node, a path changes that node as its back does and puts it back
at its address. -/
theorem mutate_append (mutation : Mutation) (h : Leads root front address target)
    (hback : back ≠ []) :
    mutate mutation root (front ++ back) =
      (mutate mutation target back).within (root.replaceAt address) := by
  induction h with
  | here node => rfl
  | root _ ih =>
    rw [List.cons_append,
      mutate_root_cons mutation _ (List.append_ne_nil_of_right_ne_nil _ hback), ih]
  | down hposition hchild _ ih =>
    rw [List.cons_append,
      mutate_down mutation hposition hchild (List.append_ne_nil_of_right_ne_nil _ hback), ih,
      Change.within_within]
    -- Putting the child back is one level of the replacement at the longer address.
    congr 1
    funext tree
    rw [replaceAt_cons hchild]

/-- Behind a front that leads to a node, the last segment is read there. -/
theorem read_last (h : Leads root front address target) (last : Segment) :
    root.read (front ++ [last]) = target.readLast last :=
  read_append h (List.cons_ne_nil _ _)

/-- Behind a front that leads to a node, the last segment is changed there, and the node is put back.
-/
theorem mutate_last (mutation : Mutation) (h : Leads root front address target) (last : Segment) :
    mutate mutation root (front ++ [last]) =
      (mutateLast mutation target last).within (root.replaceAt address) :=
  mutate_append mutation h (List.cons_ne_nil _ _)

/-- Behind a blocked front every read fails with its error. -/
theorem Blocked.read (h : Blocked root front e) (hback : back ≠ []) :
    root.read (front ++ back) = .error e := by
  induction h with
  | here hsegment hposition =>
    rw [List.cons_append,
      read_cons _ hsegment (List.append_ne_nil_of_right_ne_nil _ hback), hposition]
  | root _ ih =>
    rw [List.cons_append, read_root_cons _ (List.append_ne_nil_of_right_ne_nil _ hback), ih]
  | down hposition hchild _ ih =>
    rw [List.cons_append,
      read_down hposition hchild (List.append_ne_nil_of_right_ne_nil _ hback), ih]

/-- Behind a blocked front every mutation fails with its error and leaves the tree. -/
theorem Blocked.mutate (mutation : Mutation) (h : Blocked root front e) (hback : back ≠ []) :
    mutate mutation root (front ++ back) = .failed e root := by
  induction h with
  | here hsegment hposition =>
    rw [List.cons_append,
      mutate_cons mutation _ hsegment (List.append_ne_nil_of_right_ne_nil _ hback), hposition]
  | root _ ih =>
    rw [List.cons_append,
      mutate_root_cons mutation _ (List.append_ne_nil_of_right_ne_nil _ hback), ih]
  | down hposition hchild _ ih =>
    rw [List.cons_append,
      mutate_down mutation hposition hchild (List.append_ne_nil_of_right_ne_nil _ hback), ih,
      Change.failed_within, setChild_child? hchild]

/-- At a name that is not there a read comes back with nothing. -/
theorem FirstAbsent.read (h : FirstAbsent root path front name back address entries) :
    root.read path = .ok none := by
  rw [h.path_eq, read_append h.leads (List.cons_ne_nil _ _)]
  by_cases hback : back = []
  · subst hback
    rw [Node.read, readLast_key, Entries.get?_eq_none_iff.mpr h.absent]
  · rw [read_cons _ (by simp) hback, position_key_of_not_mem h.absent]

/-- At a name that is not there a deletion comes back with nothing and leaves the tree. -/
theorem FirstAbsent.delete (h : FirstAbsent root path front name back address entries) :
    root.delete path = .done none root := by
  have hstay : Node.mutate .delete (mapping entries) (.key name :: back) =
      .done none (mapping entries) := by
    by_cases hback : back = []
    · subst hback
      rw [Node.mutate, mutateLast, deleteLast_key, Entries.get?_eq_none_iff.mpr h.absent,
        Entries.erase_of_not_mem h.absent]
    · rw [mutate_cons _ _ (by simp) hback, position_key_of_not_mem h.absent]
  rw [Node.delete, h.path_eq, mutate_append _ h.leads (List.cons_ne_nil _ _), hstay,
    Change.done_within, replaceAt_subtree? h.leads.subtree?]

end Ends

end Node

end TreePath

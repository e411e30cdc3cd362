import TreePath.Access
import TreePath.Proofs.Navigation.Composition

/-!
# The root token in a path

The root token stays where it is.  In front of another segment it makes no difference, neither to what
a path reads (`read_withoutInnerRoots`) nor to what it changes, nor to what a failed write leaves
(`mutate_withoutInnerRoots`).

At the end of a path it does.  Nothing is changed there: every write fails in the same way, whatever
its value is, and every deletion leaves the tree (`mutate_write_root`, `mutate_delete_root`).  A read
stays where it is too, but the segment in front of the root token is then in the middle of the path.
For a name, and for an index on a sequence, this is the same.  A slice leads to no child, and an index
on a mapping leads to the value of the entry where it reads the entry at the end of a path.  So a root
token behind one of these is no idle step, and everywhere else it is one (`read_withoutRoots_iff`).
-/

set_option autoImplicit false

namespace TreePath

namespace Path

/-- The path without its root tokens. -/
def withoutRoots (path : Path) : Path := path.filter (· ≠ .root)

/-- The path without the root tokens that stand in front of another segment. -/
def withoutInnerRoots : Path → Path
  | [] => []
  | [segment] => [segment]
  | .root :: rest => withoutInnerRoots rest
  | segment :: rest => segment :: withoutInnerRoots rest

variable {path rest : Path} {segment : Segment}

/-- A root token with something behind it is left out. -/
theorem withoutInnerRoots_root_cons (h : rest ≠ []) :
    withoutInnerRoots (.root :: rest) = withoutInnerRoots rest := by
  cases rest with
  | nil => exact absurd rfl h
  | cons next more => rfl

/-- Another segment stays in front. -/
theorem withoutInnerRoots_cons (hsegment : segment ≠ .root) (rest : Path) :
    withoutInnerRoots (segment :: rest) = segment :: withoutInnerRoots rest := by
  cases rest with
  | nil => rfl
  | cons next more =>
    cases segment with
    | root => exact absurd rfl hsegment
    | key name => rfl
    | index i => rfl
    | slice range => rfl

/-- The last segment stays, so nothing is left of the empty path only. -/
theorem withoutInnerRoots_eq_nil_iff : withoutInnerRoots path = [] ↔ path = [] := by
  induction path with
  | nil => rfl
  | cons segment rest ih =>
    by_cases hrest : rest = []
    · simp [hrest, withoutInnerRoots]
    · by_cases hroot : segment = .root
      · simp [hroot, withoutInnerRoots_root_cons hrest, ih, hrest]
      · simp [withoutInnerRoots_cons hroot]

/-- No root token is left, not at the end either. -/
theorem root_not_mem_withoutRoots (path : Path) : Segment.root ∉ withoutRoots path := by
  simp [withoutRoots]

/-- A root token at the end is left out. -/
theorem withoutRoots_concat_root (front : Path) :
    withoutRoots (front ++ [.root]) = withoutRoots front := by
  simp [withoutRoots]

/-- Another segment at the end stays there. -/
theorem withoutRoots_concat (hsegment : segment ≠ .root) (front : Path) :
    withoutRoots (front ++ [segment]) = withoutRoots front ++ [segment] := by
  simp [withoutRoots, hsegment]

/-- In front of the last segment all root tokens go. -/
theorem withoutInnerRoots_concat (front : Path) (last : Segment) :
    withoutInnerRoots (front ++ [last]) = withoutRoots front ++ [last] := by
  induction front with
  | nil => rfl
  | cons segment rest ih =>
    rw [List.cons_append]
    by_cases hroot : segment = .root
    · subst hroot
      rw [withoutInnerRoots_root_cons (List.append_ne_nil_of_right_ne_nil _ (List.cons_ne_nil _ _)),
        ih, withoutRoots, withoutRoots, List.filter_cons_of_neg (by simp)]
    · rw [withoutInnerRoots_cons hroot, ih, withoutRoots, withoutRoots,
        List.filter_cons_of_pos (by simpa using hroot), List.cons_append]

end Path

namespace Node

open TreePath.Path

variable {node : Node} {segment : Segment}

/-! ## In front of another segment -/

/-- **A root token in front of another segment makes no difference to a read.** -/
theorem read_withoutInnerRoots (root : Node) (path : Path) :
    root.read path.withoutInnerRoots = root.read path := by
  induction path generalizing root with
  | nil => rfl
  | cons segment rest ih =>
    by_cases hrest : rest = []
    · subst hrest
      rfl
    · have hinner : withoutInnerRoots rest ≠ [] := mt withoutInnerRoots_eq_nil_iff.mp hrest
      by_cases hroot : segment = .root
      · subst hroot
        rw [withoutInnerRoots_root_cons hrest, ih, read_root_cons root hrest]
      · rw [withoutInnerRoots_cons hroot, read_cons root hroot hinner, read_cons root hroot hrest]
        simp only [ih]

/-- **A root token in front of another segment makes no difference to a change**, nor to what a failed
write leaves. -/
theorem mutate_withoutInnerRoots (mutation : Mutation) (root : Node) (path : Path) :
    mutate mutation root path.withoutInnerRoots = mutate mutation root path := by
  induction path generalizing root with
  | nil => rfl
  | cons segment rest ih =>
    by_cases hrest : rest = []
    · subst hrest
      rfl
    · have hinner : withoutInnerRoots rest ≠ [] := mt withoutInnerRoots_eq_nil_iff.mp hrest
      by_cases hroot : segment = .root
      · subst hroot
        rw [withoutInnerRoots_root_cons hrest, ih, mutate_root_cons mutation root hrest]
      · rw [withoutInnerRoots_cons hroot, mutate_cons mutation root hroot hinner,
          mutate_cons mutation root hroot hrest]
        simp only [ih]

/-! ## Changes at the end of a path -/

/-- A write to the root token fails in the same way, whatever its value is. -/
theorem mutate_write_root (root : Node) (path : Path) :
    ∃ e left, ∀ value, mutate (.write value) root (path ++ [.root]) = .failed e left := by
  induction path generalizing root with
  | nil => exact ⟨.protectedRoot .write, root, fun value => writeLast_root value root⟩
  | cons segment rest ih =>
    have hrest : rest ++ [.root] ≠ [] := List.append_ne_nil_of_right_ne_nil _ (List.cons_ne_nil _ _)
    simp only [List.cons_append]
    by_cases hroot : segment = .root
    · subst hroot
      simp only [mutate_root_cons _ root hrest]
      exact ih root
    · simp only [mutate_cons _ root hroot hrest]
      cases hposition : root.position segment with
      | error e => exact ⟨e, root, fun _ => rfl⟩
      | ok found =>
        cases found with
        | none =>
          obtain ⟨e, left, h⟩ := ih emptyMapping
          exact ⟨e, root.appendEntry segment left, fun value => by simp [h value]⟩
        | some position =>
          obtain ⟨child, hchild⟩ := exists_child?_of_position hposition
          obtain ⟨e, left, h⟩ := ih child
          exact ⟨e, root.setChild position left, fun value => by simp [hchild, h value]⟩

/-- A deletion of the root token removes nothing and leaves the tree. -/
theorem mutate_delete_root (root : Node) (path : Path) :
    ∃ result, (∀ removed, result ≠ .ok (some removed)) ∧
      mutate .delete root (path ++ [.root]) = ⟨result, root⟩ := by
  rcases leads_or_absent_or_blocked root path with
    ⟨address, target, hleads⟩ | ⟨front, name, back, address, entries, habsent⟩ | ⟨e, hblocked⟩
  · refine ⟨.error (.protectedRoot .delete), by simp, ?_⟩
    have hlast : mutateLast .delete target .root = .failed (.protectedRoot .delete) target :=
      deleteLast_root target
    rw [mutate_last .delete hleads, hlast, Change.failed_within,
      replaceAt_subtree? hleads.subtree?]
    rfl
  · exact ⟨.ok none, by simp, (habsent.append [.root]).delete⟩
  · exact ⟨.error e, by simp, hblocked.mutate .delete (List.cons_ne_nil _ _)⟩

/-- **Changes pass over the root token and never reach it.**  Root tokens in front of another segment
make no difference to the answer of a change and to the tree that it leaves.  At the end of a path a
write fails, with an error and a tree that do not depend on its value, and a deletion gives no value
and leaves the tree. -/
theorem mutations_pass_over_roots (root : Node) (path : Path) :
    ((∀ mutation, mutate mutation root path.withoutInnerRoots = mutate mutation root path) ∧
      (∀ value, root.writeAt path.withoutInnerRoots value = root.writeAt path value) ∧
      root.deleteAt path.withoutInnerRoots = root.deleteAt path) ∧
    (∃ e left, ∀ value,
      mutate (.write value) root (path ++ [.root]) = .failed e left ∧
        root.writeAt (path ++ [.root]) value = .failed e left) ∧
    ∃ result, (∀ removed, result ≠ .ok (some removed)) ∧
      mutate .delete root (path ++ [.root]) = ⟨result, root⟩ ∧
        root.deleteAt (path ++ [.root]) = ⟨result, root⟩ := by
  have hempty : path.withoutInnerRoots.isEmpty = path.isEmpty := by
    rw [Bool.eq_iff_iff, List.isEmpty_iff, List.isEmpty_iff, withoutInnerRoots_eq_nil_iff]
  have hfull : (path ++ [Segment.root]).isEmpty = false := by simp
  refine ⟨⟨?_, ?_, ?_⟩, ?_, ?_⟩
  · exact fun mutation => mutate_withoutInnerRoots mutation root path
  · intro value
    rw [writeAt, writeAt, hempty, write, write, mutate_withoutInnerRoots]
  · rw [deleteAt, deleteAt, hempty, delete, delete, mutate_withoutInnerRoots]
  · obtain ⟨e, left, h⟩ := mutate_write_root root path
    refine ⟨e, left, fun value => ⟨h value, ?_⟩⟩
    rw [writeAt, hfull, write, h value]
    rfl
  · obtain ⟨result, hresult, h⟩ := mutate_delete_root root path
    refine ⟨result, hresult, h, ?_⟩
    rw [deleteAt, hfull, delete, h]
    rfl

-- The names that a failed write builds are the same with and without the root tokens.
example : mutate (.write null) emptyMapping [.root, .key "a", .root, .key "b", .root] =
    .failed (.protectedRoot .write) (singleton "a" (singleton "b" emptyMapping)) := by rfl

/-! ## Reads at the end of a path -/

/-- The node answers the segment at the end of a path with a container that is built for the answer:
an index within a mapping with the entry, a slice with what it selects. -/
inductive BuildsAnswer : Node → Segment → Prop
  | entry {entries : Entries Node} {i : Int64} {position : Nat} :
      resolveIndex i entries.length .mapping = .ok position →
      BuildsAnswer (mapping entries) (.index i)
  | entries (entries : Entries Node) (range : Slice) :
      BuildsAnswer (mapping entries) (.slice range)
  | items (items : List Node) (range : Slice) : BuildsAnswer (sequence items) (.slice range)

/-- No node is a mapping of itself, since it would have to be larger than it is. -/
theorem ne_singleton (node : Node) (key : String) : node ≠ singleton key node := by
  intro h
  have hsize := congrArg sizeOf h
  simp [singleton] at hsize
  omega

/-- Where a segment leads to what it reads, a root token behind it makes no difference. -/
theorem read_root_behind_of_leads {address : Address} {target : Node}
    (hread : node.readLast segment = .ok (some target))
    (hleads : Leads node [segment] address target) :
    node.readLast segment = node.read [segment, .root] := by
  have hbehind := read_last hleads .root
  rw [readLast_root] at hbehind
  rw [hread, ← hbehind]
  rfl

/-- A root token behind a segment makes a difference exactly where the answer is built. -/
theorem read_root_behind_iff (hsegment : segment ≠ .root) :
    node.readLast segment = node.read [segment, .root] ↔ ¬ BuildsAnswer node segment := by
  cases landing node segment with
  | root => exact absurd rfl hsegment
  | key entries name =>
    refine iff_of_true ?_ (fun hbuilds => by cases hbuilds)
    cases hget : Entries.get? entries name with
    | none =>
      have habsent : FirstAbsent (mapping entries) [.key name, .root] [] name [.root] [] entries :=
        ⟨rfl, .here _, Entries.get?_eq_none_iff.mp hget⟩
      rw [habsent.read, readLast_key, hget]
    | some target =>
      obtain ⟨position, hleads⟩ := leads_key hget
      exact read_root_behind_of_leads (congrArg Except.ok hget) hleads
  | @entry entries i position key child hindex hentry =>
    have hchild : (mapping entries).child? position = some child := by
      rw [child?, hentry, Option.map_some]
    refine iff_of_false ?_ (not_not_intro (.entry hindex))
    rw [readLast_entry hindex hentry, read_down (position_entry hindex) hchild (by simp),
      Node.read, readLast_root]
    simpa using (ne_singleton child key).symm
  | @item items i position child hindex hitem =>
    have hleads : Leads (sequence items) [.index i] [position] child :=
      .down (position_item hindex) hitem (.here _)
    have hread := read_root_behind_of_leads (readLast_item hindex hitem) hleads
    exact iff_of_true hread (fun hbuilds => by cases hbuilds)
  | entries entries range =>
    exact iff_of_false (fun h => by cases h) (not_not_intro (.entries entries range))
  | items items range =>
    exact iff_of_false (fun h => by cases h) (not_not_intro (.items items range))
  | misfit _ hposition hread hmutate =>
    refine iff_of_true ?_ ?_
    · rw [read_cons node hsegment (List.cons_ne_nil _ _), hposition, hread]
    · rintro (@⟨entries, i, position, hindex⟩ | ⟨entries, range⟩ | ⟨items, range⟩)
      · rw [position_entry hindex] at hposition
        cases hposition
      · cases hread
      · cases hread

section Trailing

variable {root target : Node} {path front : Path} {address : Address}

/-- Behind a front that does not lead to a node every segment reads the same. -/
theorem read_append_of_not_leads {back other : Path}
    (h : ¬ ∃ address target, Leads root front address target) (hback : back ≠ [])
    (hother : other ≠ []) : root.read (front ++ back) = root.read (front ++ other) := by
  rcases leads_or_absent_or_blocked root front with
    hleads | ⟨start, name, rest, address, entries, habsent⟩ | ⟨e, hblocked⟩
  · exact absurd hleads h
  · rw [(habsent.append back).read, (habsent.append other).read]
  · rw [hblocked.read hback, hblocked.read hother]

/-- A root token at the end makes a difference exactly where the segment in front of it builds its
answer. -/
theorem read_append_root_iff (hsegment : segment ≠ .root) :
    root.read (front ++ [segment]) = root.read (front ++ [segment, .root]) ↔
      ¬ ∃ address target, Leads root front address target ∧ BuildsAnswer target segment := by
  by_cases hfront : ∃ address target, Leads root front address target
  · obtain ⟨address, target, hleads⟩ := hfront
    rw [read_last hleads, read_append hleads (List.cons_ne_nil _ _),
      read_root_behind_iff hsegment, not_iff_not]
    constructor
    · exact fun hbuilds => ⟨address, target, hleads, hbuilds⟩
    · rintro ⟨other, found, hother, hbuilds⟩
      obtain ⟨-, rfl⟩ := hleads.unique hother
      exact hbuilds
  · refine iff_of_true (read_append_of_not_leads hfront (by simp) (by simp)) ?_
    rintro ⟨address, target, hleads, -⟩
    exact hfront ⟨address, target, hleads⟩

/-- Only the root tokens behind the last other segment count. -/
theorem read_withoutRoots_concat (root : Node) (front : Path) (last : Segment) :
    root.read (front ++ [last]) = root.read (front.withoutRoots ++ [last]) := by
  rw [← withoutInnerRoots_concat, read_withoutInnerRoots]

/-- **The root token is an idle step of a read except behind a segment that builds its answer.**  A
path without its root tokens reads what the path reads, unless the path ends in a root token and the
last of its other segments is a slice of a container or an index within a mapping. -/
theorem read_withoutRoots_iff (root : Node) (path : Path) :
    root.read path.withoutRoots = root.read path ↔
      ¬ ∃ front segment address target, path.withoutRoots = front ++ [segment] ∧
        path.getLast? = some .root ∧ Leads root front address target ∧
          BuildsAnswer target segment := by
  rcases List.eq_nil_or_concat path with rfl | ⟨start, last, rfl⟩
  · exact iff_of_true rfl (by simp)
  -- A root token in front of another segment never counts, so the last segment decides.
  rw [List.concat_eq_append, read_withoutRoots_concat, List.getLast?_concat]
  by_cases hlast : last = .root
  · subst hlast
    rw [withoutRoots_concat_root]
    rcases List.eq_nil_or_concat (withoutRoots start) with hclean | ⟨clean, segment, hclean⟩
    · rw [hclean]
      exact iff_of_true (readLast_root root).symm (by simp)
    · rw [List.concat_eq_append] at hclean
      have hsegment : segment ≠ .root := by
        rintro rfl
        exact root_not_mem_withoutRoots start (by simp [hclean])
      rw [hclean, List.append_assoc, List.singleton_append, read_append_root_iff hsegment,
        not_iff_not]
      constructor
      · rintro ⟨address, target, hleads, hbuilds⟩
        exact ⟨clean, segment, address, target, rfl, rfl, hleads, hbuilds⟩
      · rintro ⟨front, other, address, target, hsplit, -, hleads, hbuilds⟩
        obtain ⟨rfl, hsame⟩ := List.append_inj' hsplit rfl
        cases hsame
        exact ⟨address, target, hleads, hbuilds⟩
  · rw [withoutRoots_concat hlast]
    refine iff_of_true rfl ?_
    rintro ⟨front, segment, address, target, -, hroot, -⟩
    exact hlast (Option.some.inj hroot)

/-- Behind an index within a mapping the root token reads the child where the index reads the
entry. -/
theorem root_behind_index_reads_child :
    Path.withoutRoots [.index 0, .root] = [.index 0] ∧
      (singleton "a" null).read [.index 0] = .ok (some (singleton "a" null)) ∧
      (singleton "a" null).read [.index 0, .root] = .ok (some null) ∧
      (singleton "a" null).read (Path.withoutRoots [.index 0, .root]) ≠
        (singleton "a" null).read [.index 0, .root] := by
  refine ⟨rfl, rfl, rfl, ?_⟩
  intro h
  cases h

end Trailing

end Node

end TreePath

import TreePath.Access
import TreePath.Proofs.Navigation.Keys

/-!
# Runs of a tree

A program works on a tree in steps: it reads, stores and removes what path texts address, and it
replaces the root.  `Tree.perform` makes one step, which gives an answer and leaves a tree, and
`Tree.after` is the tree after a whole run.  A step may fail; the run goes on with what it leaves.

Distinct keys are an invariant of every run with values of this kind (`distinct_after`), and the
answers have distinct keys as well.  The order of keys is kept by every single step
(`keepsOrder_perform`): in each mapping on the way of a path, storing adds at most one key at the end
and removing only takes out what it answers with.  `keys_along_run` puts the two together for every
step of a run.
-/

set_option autoImplicit false

namespace TreePath

namespace Tree

/-- One operation on a tree. -/
inductive Step where
  | get (text : String)
  | getOr (text : String) (default : Node)
  | contains (text : String)
  | set (text : String) (value : Node)
  | delete (text : String)
  | replaceRoot (root : Node)

/-- What an operation gives back. -/
inductive Answer where
  /-- a node that may be absent -/
  | lookup (result : Except PathError (Option Node))
  /-- a node -/
  | value (result : Except PathError Node)
  /-- whether there is something -/
  | truth (result : Except PathError Bool)

/-- The node that a step brings into the tree or gives back in place of an absent one. -/
def Step.value? : Step → Option Node
  | getOr _ default => some default
  | set _ value => some value
  | replaceRoot root => some root
  | _ => none

/-- The node that an answer holds. -/
def Answer.node? : Answer → Option Node
  | lookup (.ok found) => found
  | value (.ok node) => some node
  | _ => none

/-- A lookup holds the node that was found. -/
theorem Answer.node?_lookup {result : Except PathError (Option Node)} {node : Node} :
    (lookup result).node? = some node ↔ result = .ok (some node) := by
  cases result <;> simp [node?]

/-- A value holds its node. -/
theorem Answer.node?_value {result : Except PathError Node} {node : Node} :
    (value result).node? = some node ↔ result = .ok node := by
  cases result <;> simp [node?]

/-- Makes one step, giving its answer and the tree that it leaves. -/
def perform (tree : Tree) : Step → Answer × Tree
  | .get text => (.lookup (tree.get text), tree)
  | .getOr text default => (.value (tree.getOr text default), tree)
  | .contains text => (.truth (tree.contains text), tree)
  | .set text value => (.value (tree.set text value).1, (tree.set text value).2)
  | .delete text => (.lookup (tree.delete text).1, (tree.delete text).2)
  | .replaceRoot root => (.value (.ok (tree.replaceRoot root).1), (tree.replaceRoot root).2)

/-- The tree after a run. -/
def after (tree : Tree) (steps : List Step) : Tree :=
  steps.foldl (fun tree step => (tree.perform step).2) tree

/-- A longer run goes on where the shorter one ended. -/
theorem after_concat (tree : Tree) (before : List Step) (step : Step) :
    tree.after (before ++ [step]) = ((tree.after before).perform step).2 := by
  rw [after, List.foldl_append]
  rfl

section Distinct

variable {tree : Tree} {node value : Node}

/-- What a read gives back has distinct keys. -/
theorem distinct_get (h : tree.root.Distinct) {text : String}
    (hget : tree.get text = .ok (some node)) : node.Distinct := by
  rw [get] at hget
  cases hparse : tree.parse text with
  | error e =>
    rw [hparse] at hget
    cases hget
  | ok path =>
    rw [hparse] at hget
    exact Node.distinct_read h path hget

/-- What a read with a default gives back has distinct keys. -/
theorem distinct_getOr (h : tree.root.Distinct) (hvalue : value.Distinct) {text : String}
    (hget : tree.getOr text value = .ok node) : node.Distinct := by
  rw [getOr] at hget
  cases hfound : tree.get text with
  | error e =>
    rw [hfound] at hget
    cases hget
  | ok found =>
    rw [hfound] at hget
    cases hget
    cases found with
    | none => exact hvalue
    | some old => exact distinct_get h hfound

/-- A stored value of distinct keys leaves distinct keys and answers with them. -/
theorem distinct_set (h : tree.root.Distinct) (hvalue : value.Distinct) (text : String) :
    (tree.set text value).2.root.Distinct ∧
      ∀ node, (tree.set text value).1 = .ok node → node.Distinct := by
  rw [set]
  cases hparse : tree.parse text with
  | error e => exact ⟨h, fun node hnode => by cases hnode⟩
  | ok path =>
    cases path with
    | nil =>
      refine ⟨hvalue, fun node hnode => ?_⟩
      cases hnode
      exact h
    | cons segment rest => exact Node.distinct_write hvalue h (segment :: rest)

/-- A removal leaves distinct keys and answers with them. -/
theorem distinct_delete (h : tree.root.Distinct) (text : String) :
    (tree.delete text).2.root.Distinct ∧
      ∀ node, (tree.delete text).1 = .ok (some node) → node.Distinct := by
  rw [delete]
  cases hparse : tree.parse text with
  | error e => exact ⟨h, fun node hnode => by cases hnode⟩
  | ok path =>
    cases path with
    | nil => exact ⟨h, fun node hnode => by cases hnode⟩
    | cons segment rest =>
      have hkeeps := Node.keepsDistinct_mutate .delete trivial h (segment :: rest)
      exact ⟨hkeeps.tree, hkeeps.answer⟩

/-- **A step keeps the keys of all mappings distinct**, whether it succeeds or fails, and what it
answers with has distinct keys. -/
theorem distinct_perform (h : tree.root.Distinct) {step : Step}
    (hstep : ∀ value, step.value? = some value → value.Distinct) :
    (tree.perform step).2.root.Distinct ∧
      ∀ node, (tree.perform step).1.node? = some node → node.Distinct := by
  cases step with
  | get text =>
    exact ⟨h, fun node hnode => distinct_get h (Answer.node?_lookup.mp hnode)⟩
  | getOr text default =>
    have hdefault := hstep default rfl
    exact ⟨h, fun node hnode => distinct_getOr h hdefault (Answer.node?_value.mp hnode)⟩
  | contains text => exact ⟨h, fun node hnode => by cases hnode⟩
  | set text value =>
    obtain ⟨htree, hanswer⟩ := distinct_set h (hstep value rfl) text
    exact ⟨htree, fun node hnode => hanswer node (Answer.node?_value.mp hnode)⟩
  | delete text =>
    obtain ⟨htree, hanswer⟩ := distinct_delete h text
    exact ⟨htree, fun node hnode => hanswer node (Answer.node?_lookup.mp hnode)⟩
  | replaceRoot root =>
    refine ⟨hstep root rfl, fun node hnode => ?_⟩
    cases hnode
    exact h

/-- **A run keeps the keys of all mappings distinct.** -/
theorem distinct_after (h : tree.root.Distinct) {steps : List Step}
    (hsteps : ∀ step ∈ steps, ∀ value, step.value? = some value → value.Distinct) :
    (tree.after steps).root.Distinct := by
  induction steps generalizing tree with
  | nil => exact h
  | cons step rest ih =>
    have hstep := (distinct_perform h (hsteps step List.mem_cons_self)).1
    exact ih hstep fun later hlater => hsteps later (List.mem_cons_of_mem _ hlater)

end Distinct

/-! ## The order of keys -/

open Node (Leads KeysGrow nextName? deletedKeys)

/-- Every mapping on the way of the path of a step, from `tree`, keeps its place and its keys in
their order: storing adds at most the next name of the path at the end, and removing takes out the
keys that its answer tells.  The mapping at the end of the path is left out, since it is replaced or
removed as a whole; only the root is there to stay when it is to be removed. -/
def Step.KeepsOrder (tree : Tree) : Step → Prop
  | set text value =>
    ∀ front back address target old, tree.parse text = .ok (front ++ back) → back ≠ [] →
      Leads tree.root front address target → target.keys? = some old →
        ∃ left new, Leads (tree.set text value).2.root front address left ∧
          left.keys? = some new ∧ KeysGrow (nextName? back) old new
  | delete text =>
    ∀ front back address target old, tree.parse text = .ok (front ++ back) →
      (back = [] → front = []) → Leads tree.root front address target → target.keys? = some old →
        ∃ left, Leads (tree.delete text).2.root front address left ∧
          left.keys? = some (old.filter (· ∉ deletedKeys (tree.delete text).1 back))
  | _ => True

variable {tree : Tree}

/-- A path text that is read is what the tree is changed along. -/
theorem set_of_parse {text : String} {path : Path} (hparse : tree.parse text = .ok path)
    (hpath : path ≠ []) (value : Node) :
    tree.set text value = tree.afterChange (Node.write value tree.root path) := by
  cases path with
  | nil => exact absurd rfl hpath
  | cons segment rest =>
    rw [set, hparse]
    rfl

/-- A deletion with a path text that can be read deletes at its path. -/
theorem delete_of_parse {text : String} {path : Path} (hparse : tree.parse text = .ok path) :
    tree.delete text = tree.afterChange (Node.delete tree.root path) := by
  rw [delete, hparse]
  cases path <;> rfl

/-- **A step keeps the order of keys.** -/
theorem keepsOrder_perform (h : tree.root.Distinct) (step : Step) : step.KeepsOrder tree := by
  cases step with
  | get text => trivial
  | getOr text default => trivial
  | contains text => trivial
  | set text value =>
    intro front back address target old hparse hback hleads hold
    rw [set_of_parse hparse (List.append_ne_nil_of_right_ne_nil _ hback)]
    exact Node.keys_write_append hleads hold value hback
  | delete text =>
    intro front back address target old hparse hempty hleads hold
    rw [delete_of_parse hparse]
    by_cases hback : back = []
    · -- Nothing is removed along the empty path.
      obtain rfl := hempty hback
      subst hback
      refine ⟨target, hleads, ?_⟩
      simp [deletedKeys, hold]
    · have hdistinct := ((Node.distinct_iff target).mp (h.subtree? hleads.subtree?)).1 old hold
      exact Node.keys_delete_append hleads hold hdistinct hback
  | replaceRoot root => trivial

/-- **Keys are distinct and in order along every run.**  From a tree of distinct keys, with values of
distinct keys, every step of a run leaves a tree of distinct keys, answers with such a node, and
keeps the order of keys in every mapping on the way of its path, whether it succeeds or fails. -/
theorem keys_along_run (h : tree.root.Distinct) {steps : List Step}
    (hsteps : ∀ step ∈ steps, ∀ value, step.value? = some value → value.Distinct)
    (before later : List Step) (step : Step) (hrun : steps = before ++ step :: later) :
    (tree.after (before ++ [step])).root.Distinct ∧
      (∀ node, ((tree.after before).perform step).1.node? = some node → node.Distinct) ∧
      step.KeepsOrder (tree.after before) := by
  have hbefore : (tree.after before).root.Distinct :=
    distinct_after h fun other hother => hsteps other (by simp [hrun, hother])
  have hstep := distinct_perform hbefore (hsteps step (by simp [hrun]))
  rw [after_concat]
  exact ⟨hstep.1, hstep.2, keepsOrder_perform hbefore step⟩

/-- A run on the sample that stores a new name in the mapping and then removes its first entry, which
leaves the new name alone. -/
theorem keys_along_run_sample :
    (after (ofNode .sample) [.set "map.off" .null, .delete "map[0]"]).root.Distinct ∧
      (Node.singleton "on" (.ofBool true)).Distinct ∧
      ∃ left, Leads (after (ofNode .sample) [.set "map.off" .null, .delete "map[0]"]).root
          [.key "map"] [1] left ∧
        left.keys? = some ["off"] := by
  have hsample : (ofNode .sample).root.Distinct := Node.sample_wellFormed.distinct
  have hvalues : ∀ step ∈ [.set "map.off" .null, .delete "map[0]", .replaceRoot .null],
      ∀ value, Step.value? step = some value → value.Distinct := by
    simp [Step.value?, Node.null]
  obtain ⟨htree, hanswer, horder⟩ := keys_along_run hsample hvalues [.set "map.off" .null]
    [.replaceRoot .null] (.delete "map[0]") rfl
  obtain ⟨left, hleads, hkeys⟩ := horder [.key "map"] [.index 0] [1] _ ["on", "off"] rfl
    (by simp) (.down rfl rfl (.here _)) rfl
  exact ⟨htree, hanswer _ rfl, left, hleads, hkeys⟩

end Tree

end TreePath

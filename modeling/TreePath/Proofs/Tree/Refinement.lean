import TreePath.Proofs.Tree.Runs

/-!
# A tree behaves as its root

A tree adds a limit on path texts to the operations on a node, and nothing else.  A step whose path
text is too long is refused before the text is read, so that even a malformed text is reported as too
long (`perform_of_long`).  Every other step answers as the same operation on the root and leaves what
it leaves, with the limit kept (`perform_of_fits`).  A run of a tree is hence the run of its root over
the steps that fit the limit (`after_eq`).
-/

set_option autoImplicit false

namespace TreePath

namespace Tree

/-- The path text of an operation; only putting another root in place has none. -/
def Step.text? : Step → Option String
  | get text => some text
  | getOr text _ => some text
  | contains text => some text
  | set text _ => some text
  | delete text => some text
  | replaceRoot _ => none

/-- The path text of an operation, if it has one, keeps the limit, if there is one. -/
def Step.fits (limit : Option Nat) (step : Step) : Bool :=
  match limit, step.text? with
  | some bound, some text => text.utf8ByteSize ≤ bound
  | _, _ => true

/-- An error as the answer of an operation. -/
def Step.refusal (error : PathError) : Step → Answer
  | get _ => .lookup (.error error)
  | getOr _ _ => .value (.error error)
  | contains _ => .truth (.error error)
  | set _ _ => .value (.error error)
  | delete _ => .lookup (.error error)
  | replaceRoot _ => .value (.error error)

end Tree

namespace Node

open TreePath.Tree (Step Answer)

/-- Makes one step on a node without a limit, giving its answer and the node that it leaves. -/
def perform (node : Node) : Step → Answer × Node
  | .get text => (.lookup (node.readText text), node)
  | .getOr text default => (.value (node.readTextOr text default), node)
  | .contains text => (.truth (node.containsText text), node)
  | .set text value => (.value (node.writeText text value).result, (node.writeText text value).tree)
  | .delete text => (.lookup (node.deleteText text).result, (node.deleteText text).tree)
  | .replaceRoot root => (.value (.ok node), root)

/-- The node after a run. -/
def after (node : Node) (steps : List Step) : Node :=
  steps.foldl (fun node step => (node.perform step).2) node

end Node

namespace Tree

variable {tree : Tree} {step : Step} {text : String} {bound : Nat}

/-- A path text over the limit is refused with its length in bytes, whatever it says. -/
theorem parse_of_long (hlimit : tree.limit = some bound) (h : bound < text.utf8ByteSize) :
    tree.parse text = .error (.pathTooLong text.utf8ByteSize bound) := by
  simp only [parse, hlimit, if_pos h]

/-- A path text within the limit is read as it is without one. -/
theorem parse_of_fits (hfits : step.fits tree.limit) (htext : step.text? = some text) :
    tree.parse text = Path.parse text := by
  rw [parse]
  cases hlimit : tree.limit with
  | none => rfl
  | some bound =>
    have hlength : text.utf8ByteSize ≤ bound := by
      simpa [Step.fits, hlimit, htext] using hfits
    exact if_neg (Nat.not_lt.mpr hlength)

/-- A path text within the limit finds what it finds in the node. -/
theorem get_of_fits (hfits : step.fits tree.limit) (htext : step.text? = some text) :
    tree.get text = tree.root.readText text := by
  rw [get, parse_of_fits hfits htext]
  rfl

/-- An operation whose path text is over the limit is refused and leaves the tree. -/
theorem perform_of_long (htext : step.text? = some text) (hlimit : tree.limit = some bound)
    (h : bound < text.utf8ByteSize) :
    tree.perform step = (step.refusal (.pathTooLong text.utf8ByteSize bound), tree) := by
  have hparse := parse_of_long hlimit h
  cases step with
  | replaceRoot root => cases htext
  | _ =>
    cases htext
    simp only [perform, get, getOr, contains, set, delete, hparse]
    rfl

/-- **A step that fits the limit is the step of the root.** -/
theorem perform_of_fits (hfits : step.fits tree.limit) :
    tree.perform step =
      ((tree.root.perform step).1, { tree with root := (tree.root.perform step).2 }) := by
  cases step with
  | get text =>
    rw [perform, get_of_fits hfits rfl]
    rfl
  | getOr text default =>
    rw [perform, getOr, get_of_fits hfits rfl]
    rfl
  | contains text =>
    rw [perform, contains, get_of_fits hfits rfl]
    rfl
  | set text value =>
    have hparse := parse_of_fits hfits rfl
    rw [perform, set, hparse, Node.perform, Node.writeText]
    cases Path.parse text <;> rfl
  | delete text =>
    have hparse := parse_of_fits hfits rfl
    rw [perform, delete, hparse, Node.perform, Node.deleteText]
    cases Path.parse text <;> rfl
  | replaceRoot root => rfl

/-- An empty path sets the whole tree and answers with it, and it cannot be deleted. -/
theorem perform_of_empty_path (tree : Tree) (hparse : Path.parse text = .ok []) :
    (∀ value, (Step.set text value).fits tree.limit →
      tree.perform (.set text value) = (.value (.ok tree.root), ⟨value, tree.limit⟩)) ∧
    ((Step.delete text).fits tree.limit →
      tree.perform (.delete text) = (.lookup (.error (.protectedRoot .delete)), tree)) := by
  constructor
  · intro value hfits
    rw [perform_of_fits hfits, Node.perform, Node.writeText, hparse]
    rfl
  · intro hfits
    rw [perform_of_fits hfits, Node.perform, Node.deleteText, hparse]
    rfl

/-- An operation that does not keep the limit has a path text that is over it. -/
theorem exists_long_of_not_fits (h : ¬ step.fits tree.limit) :
    ∃ text bound, step.text? = some text ∧ tree.limit = some bound ∧ bound < text.utf8ByteSize := by
  cases hlimit : tree.limit with
  | none => simp [Step.fits, hlimit] at h
  | some bound =>
    cases htext : step.text? with
    | none => simp [Step.fits, hlimit, htext] at h
    | some text =>
      refine ⟨text, bound, rfl, rfl, ?_⟩
      simpa [Step.fits, hlimit, htext] using h

/-- **A run of a tree is the run of its root** over the steps that fit the limit, which stays. -/
theorem after_eq (tree : Tree) (steps : List Step) :
    tree.after steps =
      { tree with root := tree.root.after (steps.filter (Step.fits tree.limit)) } := by
  induction steps generalizing tree with
  | nil => rfl
  | cons step rest ih =>
    have hstep : tree.after (step :: rest) = (tree.perform step).2.after rest := rfl
    by_cases hfits : step.fits tree.limit
    · rw [hstep, perform_of_fits hfits, ih, List.filter_cons_of_pos hfits]
      rfl
    · -- A refused step leaves the tree, so the run is that of the later steps.
      obtain ⟨text, bound, htext, hlimit, hlong⟩ := exists_long_of_not_fits hfits
      rw [hstep, perform_of_long htext hlimit hlong, ih, List.filter_cons_of_neg hfits]

/-- **The steps of a run follow the root.**  After any steps, a tree holds the node that the fitting
ones among them make of the root, whether they succeed or fail, and its limit.  A step with a path text
that is too long is refused, even where the text is malformed, and leaves the tree; every other step
answers as it does on that node and leaves what it leaves.  The empty path puts another root in place
when it is stored to, and cannot be removed. -/
theorem steps_follow_root (tree : Tree) (before : List Step) (step : Step) :
    let node := tree.root.after (before.filter (Step.fits tree.limit))
    tree.after before = ⟨node, tree.limit⟩ ∧
    (∀ text bound, step.text? = some text → tree.limit = some bound → bound < text.utf8ByteSize →
      (tree.after before).perform step =
        (step.refusal (.pathTooLong text.utf8ByteSize bound), ⟨node, tree.limit⟩)) ∧
    (step.fits tree.limit →
      (tree.after before).perform step =
        ((node.perform step).1, ⟨(node.perform step).2, tree.limit⟩)) ∧
    ∀ text, Path.parse text = .ok [] →
      (∀ value, (Step.set text value).fits tree.limit →
        (tree.after before).perform (.set text value) =
          (.value (.ok node), ⟨value, tree.limit⟩)) ∧
      ((Step.delete text).fits tree.limit →
        (tree.after before).perform (.delete text) =
          (.lookup (.error (.protectedRoot .delete)), ⟨node, tree.limit⟩)) := by
  intro node
  have hafter : tree.after before = ⟨node, tree.limit⟩ := after_eq tree before
  rw [hafter]
  refine ⟨rfl, ?_, ?_, ?_⟩
  · intro text bound htext hlimit hlong
    exact perform_of_long htext hlimit hlong
  · intro hfits
    exact perform_of_fits hfits
  · intro text hparse
    exact perform_of_empty_path ⟨node, tree.limit⟩ hparse

/-- A write that fails at its last segment leaves the names on its way.  A malformed text of seven
bytes, though of four characters, is too long for a limit of six. -/
theorem steps_follow_root_sample :
    let tree : Tree := ⟨.emptyMapping, some 6⟩
    let left : Node := .singleton "a" (.singleton "b" .emptyMapping)
    tree.after [.set "a.b[0]" .null] = ⟨left, some 6⟩ ∧
      (tree.after [.set "a.b[0]" .null]).perform (.get "[ééé") =
        (.lookup (.error (.pathTooLong 7 6)), ⟨left, some 6⟩) ∧
      (tree.after [.set "a.b[0]" .null]).perform (.get "a.b") =
        (.lookup (.ok (some .emptyMapping)), ⟨left, some 6⟩) ∧
      (tree.after [.set "a.b[0]" .null]).perform (.set "" .null) =
        (.value (.ok left), ⟨.null, some 6⟩) := by
  intro tree left
  obtain ⟨hafter, hlong, -, -⟩ := steps_follow_root tree [.set "a.b[0]" .null] (.get "[ééé")
  obtain ⟨-, -, hfits, hempty⟩ := steps_follow_root tree [.set "a.b[0]" .null] (.get "a.b")
  exact ⟨hafter, hlong "[ééé" 6 rfl rfl (by decide), hfits rfl, (hempty "" rfl).1 .null rfl⟩

end Tree

end TreePath

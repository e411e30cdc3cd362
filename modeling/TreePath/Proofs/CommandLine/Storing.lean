import TreePath.Proofs.CommandLine.Run
import TreePath.Proofs.Json.Loaded
import TreePath.Proofs.Json.RoundTrip
import TreePath.Proofs.Storage.Saving
import TreePath.Proofs.Tree.Runs

/-!
# A stored value is shown again, unless it is too deep

A command that stores a value saves the changed tree, and the next command loads it.  The tree has no
floats and distinct keys, so what the next command loads is the tree that was saved, as long as its
containers are nested within the limit of the reader (`load_of_save`).  The writer has no such limit.
How deep the saved tree is follows from the path and the value alone, since the tree before was itself
read within the limit (`Node.depth_write`).
-/

set_option autoImplicit false

namespace TreePath

namespace Tree

variable {tree : Tree} {text : String} {path : Path} {value stored : Node}

/-- A path text that keeps the limit is read as without one. -/
theorem parse_text (h : tree.parse text = .ok path) : Path.parse text = .ok path := by
  unfold parse at h
  split at h
  · split at h
    · cases h
    · exact h
  · exact h

/-- A value is stored in a tree along the path that the text stands for. -/
theorem write_of_set (hpath : Path.parse text = .ok path) (hne : path ≠ []) {after : Tree}
    (h : tree.set text value = (.ok stored, after)) :
    tree.parse text = .ok path ∧
      Node.write value tree.root path = .done stored after.root := by
  cases hparse : tree.parse text with
  | error e =>
    rw [set, hparse] at h
    cases h
  | ok found =>
    have hfound := parse_text hparse
    rw [hpath] at hfound
    cases hfound
    rw [set_of_parse hparse hne, afterChange] at h
    obtain ⟨hresult, rfl⟩ := Prod.mk.inj h
    exact ⟨rfl, by rw [Change.done, ← hresult]⟩

end Tree

namespace FileSystem

variable {files after : FileSystem} {name : String} {config : Config} {node : Node}

/-- **A saved tree without floats is loaded again, unless it is too deep.** -/
theorem load_of_save (hformat : Format.ofName name = .json) (hdistinct : node.Distinct)
    (hfloat : node.FloatFree) (h : files.save name config node = (.ok (), after)) :
    after.load name = if node.depth ≤ 127 then .ok node else .error (.malformed .json) := by
  have hattempt := files.attempt_of_no_refusal name config node
  rw [h] at hattempt
  have htext : after.documentText name = .ok (endLine (Format.render .json config node)) := by
    rw [documentText_of_read? (read?_of_attempt hattempt), savedText, hformat]
  have hload := Format.load_endLine config hdistinct hfloat
  rw [load, htext, hformat]
  simp only [bind, Except.bind, Format.loadText, hload]
  split <;> rfl

/-- A JSON document that was loaded has distinct keys in every mapping and is nested within the limit
of the reader. -/
theorem distinct_and_depth_of_load (hformat : Format.ofName name = .json)
    (h : files.load name = .ok node) : node.Distinct ∧ node.depth ≤ 127 := by
  obtain ⟨text, -, htext⟩ := exists_of_bind_eq_ok h
  rw [hformat] at htext
  exact Format.distinct_and_depth_of_load (eq_ok_of_mapError htext)

end FileSystem

namespace Invocation

open TreePath.Path (levels)

variable {files after : FileSystem} {home file path text : String} {options later : Options}
  {config : Config} {root value stored new : Node} {front : Path} {last : Segment} {report : Report}

/-- What a write puts at a name, or at an index that lands on a sequence, is read there. -/
theorem read_of_write (hlast : (∃ name, last = .key name) ∨
      ∃ i address items, last = .index i ∧ Node.Leads root front address (.sequence items))
    (h : Node.write value root (front ++ [last]) = .done stored new) :
    new.read (front ++ [last]) = .ok (some value) := by
  rcases hlast with ⟨name, rfl⟩ | ⟨i, address, items, rfl, hleads⟩
  · exact Node.read_write_key h
  · rcases Node.read_write_index h with ⟨_, _, _, hread⟩ | ⟨_, _, _, _, _, hmapping, _⟩
    · exact hread
    · cases (hleads.unique hmapping).2

/-- **A value that was stored is shown again exactly when it is not too deep.**  A command that stores
a value under a name, or at an index of a sequence, in a JSON document without floats leaves a tree
in which the value begins as many levels below the root as the path has.  When that keeps the value
within 127 containers, the same path shows it afterwards, as JSON in the style of the settings and with
a line break behind it.  Otherwise the command has succeeded all the same, but the document cannot be
loaded any more. -/
theorem get_of_set
    (hconfig : (Invocation.mk options file (.set path text)).config files home = .ok config)
    (hformat : Format.ofName file = .json)
    (hload : files.load file = .ok root) (hroot : root.FloatFree)
    (hvalue : Format.json.load text = .ok value) (hfloat : value.FloatFree)
    (hpath : Path.parse path = .ok (front ++ [last]))
    (hlast : (∃ name, last = .key name) ∨
      ∃ i address items, last = .index i ∧ Node.Leads root front address (.sequence items))
    (hset : (Invocation.mk options file (.set path text)).run files home = (report, after))
    (hstatus : report.status = 0)
    (hlater : (Invocation.mk later file (.get path)).config after home = .ok config) :
    (levels (front ++ [last]) + value.depth ≤ 127 →
      (Invocation.mk later file (.get path)).run after home =
        (⟨0, Json.render config.style value ++ "\n", none⟩, after)) ∧
    (127 < levels (front ++ [last]) + value.depth →
      (Invocation.mk later file (.get path)).run after home =
        (⟨1, "", some ("Failed to load " ++ file)⟩, after)) := by
  obtain ⟨loaded, stored, tree, hloaded, hstored, hsave⟩ := stored_of_run hconfig hload hset hstatus
  rw [hvalue] at hloaded
  cases hloaded
  obtain ⟨hparse, hwritten⟩ := Tree.write_of_set hpath (by simp) hstored
  have hwrite : Node.write value root (front ++ [last]) = .done stored tree.root := hwritten
  have hsingle : last.isSingle := by
    rcases hlast with ⟨name, rfl⟩ | ⟨i, address, items, rfl, -⟩
    · rfl
    · rfl
  have hread := read_of_write hlast hwrite
  -- The saved tree has what loading needs, and its depth is known.
  obtain ⟨hdistinct, hdepth⟩ := FileSystem.distinct_and_depth_of_load hformat hload
  obtain ⟨hvalueDistinct, -⟩ := Format.distinct_and_depth_of_load hvalue
  have hkept : tree.root.Distinct := by
    have hwhole := (Node.distinct_write hvalueDistinct hdistinct (front ++ [last])).1
    rwa [hwrite] at hwhole
  have hfree := Node.floatFree_write hsingle hroot hfloat hwrite
  obtain ⟨hleast, hmost⟩ := Node.depth_write hsingle hwrite
  have hreload := FileSystem.load_of_save hformat hkept hfree hsave
  constructor
  · intro hshallow
    rw [if_pos (by omega)] at hreload
    apply run_get hlater hreload
    have hsame : (Tree.mk tree.root (some config.maxPathLength.toNat)).parse path =
        .ok (front ++ [last]) := hparse
    rw [Tree.get, hsame]
    exact hread
  · intro hdeep
    rw [if_neg (by omega)] at hreload
    exact run_of_plan_error (plan_of_load_error hlater hreload)

/-- A working directory with an empty document. -/
def emptyDocument : FileSystem where
  items := [(["home"], .directory), (["home", "d.json"], .file [123, 125])]
  working := ["home"]

/-- A sequence under a name is shown again, on several lines or on one as the settings say.  A value of
127 brackets is stored as well, but one more bracket is around it in the document, which cannot be
loaded then. -/
theorem get_of_set_sample :
    (∃ after, (Invocation.mk {} "d.json" (.set "a" "[1]")).run emptyDocument "" =
        (⟨0, "[\n  1\n]\n", none⟩, after) ∧
      (Invocation.mk {} "d.json" (.get "a")).run after "" = (⟨0, "[\n  1\n]\n", none⟩, after)) ∧
    (∃ after, (Invocation.mk { compact := true } "d.json" (.set "a" "[1]")).run emptyDocument "" =
        (⟨0, "[1]\n", none⟩, after) ∧
      (Invocation.mk { compact := true } "d.json" (.get "a")).run after "" =
        (⟨0, "[1]\n", none⟩, after)) ∧
    ∃ text after, (Invocation.mk {} "d.json" (.set "a" text)).run emptyDocument "" =
        (⟨0, Json.render (Config.style {}) (Node.nested 127) ++ "\n", none⟩, after) ∧
      (Invocation.mk {} "d.json" (.get "a")).run after "" =
        (⟨1, "", some "Failed to load d.json"⟩, after) := by
  have hempty : Node.emptyMapping.FloatFree := by simp [Node.emptyMapping]
  have hload : emptyDocument.load "d.json" = .ok .emptyMapping := rfl
  have hpath : Path.parse "a" = .ok ([] ++ [.key "a"]) := rfl
  have hname : (∃ name, Segment.key "a" = .key name) ∨ ∃ i address items,
      Segment.key "a" = .index i ∧
        Node.Leads .emptyMapping [] address (.sequence items) := .inl ⟨"a", rfl⟩
  have hset : ∀ value : Node, (Tree.mk .emptyMapping (some 4096)).set "a" value =
      (.ok value, ⟨.singleton "a" value, some 4096⟩) := fun _ => rfl
  have hvalue : Format.json.load "[1]" = .ok (.sequence [.ofInt64 1]) := rfl
  have hfloat : (Node.sequence [.ofInt64 1]).FloatFree := by simp [Node.ofInt64]
  -- The settings and the success of a save do not depend on what is saved.
  have hpretty : ∀ text, (Invocation.mk {} "d.json" (.set "a" text)).config emptyDocument "" =
      .ok {} := fun _ => rfl
  have hcompact : (Invocation.mk { compact := true } "d.json" (.set "a" "[1]")).config
      emptyDocument "" = .ok { pretty := false } := rfl
  have hsave : ∀ pretty node, emptyDocument.save "d.json" { pretty := pretty } node =
      (.ok (), (emptyDocument.save "d.json" { pretty := pretty } node).2) := fun _ _ => rfl
  have hlater : ∀ node, (Invocation.mk {} "d.json" (.get "a")).config
      (emptyDocument.save "d.json" {} node).2 "" = .ok {} := fun _ => rfl
  have hlaterCompact : ∀ node, (Invocation.mk { compact := true } "d.json" (.get "a")).config
      (emptyDocument.save "d.json" { pretty := false } node).2 "" = .ok { pretty := false } :=
    fun _ => rfl
  refine ⟨?_, ?_, ?_⟩
  · have hrun := run_set (hpretty "[1]") hload hvalue (hset _) (hsave true _)
    have hback := (get_of_set (hpretty _) rfl hload hempty hvalue hfloat hpath hname hrun rfl
      (hlater _)).1 (by decide)
    have hshown : Json.render (Config.style {}) (.sequence [.ofInt64 1]) ++ "\n" =
        "[\n  1\n]\n" := by decide +kernel
    rw [shown, hshown] at hrun
    rw [hshown] at hback
    exact ⟨_, hrun, hback⟩
  · have hrun := run_set hcompact hload hvalue (hset _) (hsave false _)
    have hback := (get_of_set hcompact rfl hload hempty hvalue hfloat hpath hname hrun rfl
      (hlaterCompact _)).1 (by decide)
    have hshown : Json.render (Config.style { pretty := false }) (.sequence [.ofInt64 1]) ++ "\n" =
        "[1]\n" := by decide +kernel
    rw [shown, hshown] at hrun
    rw [hshown] at hback
    exact ⟨_, hrun, hback⟩
  · have hbrackets := Format.load_nodeChars (Node.nested_distinct 127) (Node.nested_floatFree 127)
      .compact [] (.inl rfl)
    rw [if_pos (Nat.le_of_eq (Node.depth_nested 127))] at hbrackets
    have hrun := run_set (hpretty _) hload hbrackets (hset _) (hsave true _)
    have hdeep := get_of_set (hpretty _) rfl hload hempty hbrackets (Node.nested_floatFree 127) hpath
      hname hrun rfl (hlater _)
    refine ⟨_, _, hrun, hdeep.2 ?_⟩
    rw [Node.depth_nested]
    decide

end Invocation

end TreePath

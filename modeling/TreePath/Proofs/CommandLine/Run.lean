import TreePath.CommandLine.Run
import TreePath.Proofs.Outcome
import TreePath.Proofs.Storage.Saving

/-!
# Stages of a command

A command goes through stages: its settings, its document, its own work, and the steps that save.  A
stage that fails ends the command with status 1 and the message of this stage, and only the last stage
touches files.  `run_of_plan_error` and `run_eq_of_status` say what becomes of a plan, and `plan_eq`
that the plan is the work of the command once the settings and the document are there.  A plan fails,
or shows something and has no steps, or saves a document (`plan_cases`).
-/

set_option autoImplicit false

namespace TreePath

namespace FileSystem

variable {ε ε' : Type} {files : FileSystem}

/-- Errors in other words do not change what a run does. -/
theorem performUpTo_map (f : ε → ε') (refusal : Option Nat) (steps : List (FileStep × ε))
    (files : FileSystem) :
    performUpTo refusal (steps.map fun (step, fault) => (step, f fault)) files =
      ((performUpTo refusal steps files).1.mapError f, (performUpTo refusal steps files).2) := by
  induction steps generalizing refusal files with
  | nil => rfl
  | cons pair rest ih =>
    obtain ⟨step, fault⟩ := pair
    rw [List.map_cons, performUpTo, performUpTo]
    split
    next => rfl
    next =>
      cases files.perform? step with
      | none => rfl
      | some next => exact ih _ next

/-- Errors in other words do not change what a run without refusals does. -/
theorem performAll_map (f : ε → ε') (steps : List (FileStep × ε)) (files : FileSystem) :
    performAll (steps.map fun (step, fault) => (step, f fault)) files =
      ((performAll steps files).1.mapError f, (performAll steps files).2) := by
  rw [← performUpTo_none, performUpTo_map, performUpTo_none]

end FileSystem

/-- The command saves the document unless it fails, or finds nothing to remove. -/
def Command.saves : Command → Bool
  | .get _ => false
  | .set _ _ => true
  | .delete _ => true
  | .rewrite _ => false

/-- The document under the limit on path texts. -/
def Config.tree (config : Config) (root : Node) : Tree := ⟨root, some config.maxPathLength.toNat⟩

namespace Invocation

variable {files after : FileSystem} {home file : String} {options : Options} {config : Config}
  {root value stored new : Node} {invocation : Invocation} {e : CommandError} {plan : Plan}
  {report : Report} {path text : String}

/-! ## From plans to runs -/

/-- A command without a plan ends with status 1 and the message of its error. -/
theorem run_of_plan_error (h : invocation.plan files home = .error e) :
    invocation.run files home = (⟨1, "", some e.message⟩, files) := by
  rw [run, h]

/-- A plan without steps shows its output and changes no file. -/
theorem run_of_plan_nil {output : String} (h : invocation.plan files home = .ok ⟨[], output⟩) :
    invocation.run files home = (⟨0, output, none⟩, files) := by
  rw [run, h]
  rfl

/-- A command succeeds when it has a plan whose steps can all be made. -/
theorem run_eq_of_status (h : invocation.run files home = (report, after))
    (hstatus : report.status = 0) :
    ∃ plan, invocation.plan files home = .ok plan ∧
      FileSystem.performAll plan.steps files = (.ok (), after) := by
  rw [run] at h
  cases hplan : invocation.plan files home with
  | error e =>
    rw [hplan] at h
    cases h
    cases hstatus
  | ok plan =>
    rw [hplan] at h
    simp only at h
    rcases hsteps : FileSystem.performAll plan.steps files with ⟨result, next⟩
    cases result with
    | error e =>
      rw [hsteps] at h
      cases h
      cases hstatus
    | ok =>
      rw [hsteps] at h
      cases h
      exact ⟨plan, rfl, hsteps⟩

/-! ## Plans -/

/-- With settings and a document, the plan is what the command makes of the document. -/
theorem plan_eq (hconfig : invocation.config files home = .ok config)
    (hload : files.load invocation.file = .ok root) :
    invocation.plan files home =
      planCommand files invocation.file config root invocation.command := by
  rw [plan, hconfig, hload]
  rfl

/-- Without settings there is no plan, whatever the document is. -/
theorem plan_of_config_error {fault : SettingsError}
    (hconfig : invocation.config files home = .error fault) :
    invocation.plan files home = .error (.settings fault) := by
  rw [plan, hconfig]
  rfl

/-- Without a document there is no plan. -/
theorem plan_of_load_error {fault : LoadError}
    (hconfig : invocation.config files home = .ok config)
    (hload : files.load invocation.file = .error fault) :
    invocation.plan files home = .error (.loading invocation.file) := by
  rw [plan, hconfig, hload]
  rfl

section Plans

variable (hconfig : invocation.config files home = .ok config)
  (hload : files.load invocation.file = .ok root) {tree : Tree} {error : PathError}

include hconfig hload

/-- The plan of a command that stores a value: the tree with the value is saved, and what the write
gave back is shown. -/
theorem plan_set (hcommand : invocation.command = .set path text)
    (hvalue : Format.json.load text = .ok value)
    (hset : (config.tree root).set path value = (.ok stored, tree)) :
    invocation.plan files home = (saving files invocation.file config tree.root).map
      fun steps => ⟨steps, shown config stored⟩ := by
  rw [Config.tree] at hset
  rw [plan_eq hconfig hload, hcommand, planCommand, hvalue]
  simp only [hset, Except.mapError, bind, Except.bind]
  cases saving files invocation.file config tree.root <;> rfl

/-- A value that is no JSON ends the command before the tree is touched. -/
theorem plan_set_of_value_error {fault : SyntaxFault}
    (hcommand : invocation.command = .set path text)
    (hvalue : Format.json.load text = .error fault) :
    invocation.plan files home = .error .value := by
  rw [plan_eq hconfig hload, hcommand, planCommand, hvalue]
  rfl

/-- A value that the tree does not take ends the command, and what the write left in the tree is
dropped with the tree. -/
theorem plan_set_of_error (hcommand : invocation.command = .set path text)
    (hvalue : Format.json.load text = .ok value)
    (hset : (config.tree root).set path value = (.error error, tree)) :
    invocation.plan files home = .error (.path error) := by
  rw [Config.tree] at hset
  rw [plan_eq hconfig hload, hcommand, planCommand, hvalue]
  simp only [hset, Except.mapError, bind, Except.bind]

/-- The plan of a command that removes a value: the tree without it is saved, and the value is shown.
-/
theorem plan_delete (hcommand : invocation.command = .delete path)
    (hdelete : (config.tree root).delete path = (.ok (some value), tree)) :
    invocation.plan files home = (saving files invocation.file config tree.root).map
      fun steps => ⟨steps, shown config value⟩ := by
  rw [Config.tree] at hdelete
  rw [plan_eq hconfig hload, hcommand, planCommand]
  simp only [hdelete, Except.mapError, bind, Except.bind]
  cases saving files invocation.file config tree.root <;> rfl

/-- Where nothing is there to be removed, null is shown and there are no steps. -/
theorem plan_delete_of_none (hcommand : invocation.command = .delete path)
    (hdelete : (config.tree root).delete path = (.ok none, tree)) :
    invocation.plan files home = .ok ⟨[], shown config .null⟩ := by
  rw [Config.tree] at hdelete
  rw [plan_eq hconfig hload, hcommand, planCommand]
  simp only [hdelete, Except.mapError, bind, Except.bind]
  rfl

/-- A path that cannot be followed to its end ends the command that was to remove something there. -/
theorem plan_delete_of_error (hcommand : invocation.command = .delete path)
    (hdelete : (config.tree root).delete path = (.error error, tree)) :
    invocation.plan files home = .error (.path error) := by
  rw [Config.tree] at hdelete
  rw [plan_eq hconfig hload, hcommand, planCommand]
  simp only [hdelete, Except.mapError, bind, Except.bind]

/-- A command that shows a value has no steps. -/
theorem plan_get (hcommand : invocation.command = .get path) :
    (∃ error, invocation.plan files home = .error error) ∨
      ∃ output, invocation.plan files home = .ok ⟨[], output⟩ := by
  rw [plan_eq hconfig hload, hcommand, planCommand]
  cases (Tree.mk root (some config.maxPathLength.toNat)).get path with
  | error e => exact .inl ⟨_, rfl⟩
  | ok found => exact .inr ⟨_, rfl⟩

/-- A command that fills a template has no steps. -/
theorem plan_rewrite (hcommand : invocation.command = .rewrite text) :
    (∃ error, invocation.plan files home = .error error) ∨
      ∃ output, invocation.plan files home = .ok ⟨[], output⟩ := by
  rw [plan_eq hconfig hload, hcommand, planCommand]
  cases Format.json.load text with
  | error fault => exact .inl ⟨_, rfl⟩
  | ok template =>
    simp only [Except.mapError, bind, Except.bind]
    cases Template.fill template root with
    | error e => exact .inl ⟨_, rfl⟩
    | ok filled => exact .inr ⟨_, rfl⟩

end Plans

/-- **A command fails, or shows something and changes no file, or saves a document.** -/
theorem plan_cases (invocation : Invocation) (files : FileSystem) (home : String) :
    (∃ error, invocation.plan files home = .error error) ∨
      (∃ output, invocation.plan files home = .ok ⟨[], output⟩) ∨
      invocation.command.saves ∧ ∃ config new output, invocation.plan files home =
        (saving files invocation.file config new).map fun steps => ⟨steps, output⟩ := by
  cases hconfig : invocation.config files home with
  | error fault => exact .inl ⟨_, plan_of_config_error hconfig⟩
  | ok config =>
    cases hload : files.load invocation.file with
    | error fault => exact .inl ⟨_, plan_of_load_error hconfig hload⟩
    | ok root =>
      cases hcommand : invocation.command with
      | get path => exact (plan_get hconfig hload hcommand).imp_right .inl
      | set path text =>
        cases hvalue : Format.json.load text with
        | error fault => exact .inl ⟨_, plan_set_of_value_error hconfig hload hcommand hvalue⟩
        | ok value =>
          rcases hset : (config.tree root).set path value with ⟨e | stored, tree⟩
          · exact .inl ⟨_, plan_set_of_error hconfig hload hcommand hvalue hset⟩
          · exact .inr (.inr ⟨rfl, _, _, _, plan_set hconfig hload hcommand hvalue hset⟩)
      | delete path =>
        rcases hdelete : (config.tree root).delete path with ⟨e | _ | removed, tree⟩
        · exact .inl ⟨_, plan_delete_of_error hconfig hload hcommand hdelete⟩
        · exact .inr (.inl ⟨_, plan_delete_of_none hconfig hload hcommand hdelete⟩)
        · exact .inr (.inr ⟨rfl, _, _, _, plan_delete hconfig hload hcommand hdelete⟩)
      | rewrite template => exact (plan_rewrite hconfig hload hcommand).imp_right .inl

/-! ## Storing a value -/

/-- The steps of a plan are those of a save, so a plan that is carried out has saved the document. -/
theorem save_of_saving {steps : List (FileStep × CommandError)}
    (hsteps : saving files file config new = .ok steps)
    (h : FileSystem.performAll steps files = (.ok (), after)) :
    files.save file config new = (.ok (), after) := by
  rw [saving] at hsteps
  rw [FileSystem.save]
  cases hplan : files.savePlan file config new with
  | error fault =>
    rw [hplan] at hsteps
    cases hsteps
  | ok made =>
    rw [hplan] at hsteps
    cases hsteps
    rw [FileSystem.performAll_map] at h
    simp only
    rcases hrun : FileSystem.performAll made files with ⟨result, next⟩
    rw [hrun] at h
    cases result with
    | error fault => cases h
    | ok =>
      cases h
      rfl

/-- A document that can be saved has steps that can all be made. -/
theorem saving_of_save (h : files.save file config new = (.ok (), after)) :
    ∃ steps, saving files file config new = .ok steps ∧
      FileSystem.performAll steps files = (.ok (), after) := by
  obtain ⟨made, hplan, hrun⟩ := FileSystem.save_eq_ok h
  refine ⟨_, by rw [saving, hplan], ?_⟩
  rw [FileSystem.performAll_map, hrun]
  rfl

/-- **Storing a value succeeds only when each stage does**: the value is JSON, the tree takes it, and
the changed tree is saved. -/
theorem stored_of_run (hconfig : (Invocation.mk options file (.set path text)).config files home =
      .ok config)
    (hload : files.load file = .ok root)
    (h : (Invocation.mk options file (.set path text)).run files home = (report, after))
    (hstatus : report.status = 0) :
    ∃ value stored tree, Format.json.load text = .ok value ∧
      (Tree.mk root (some config.maxPathLength.toNat)).set path value = (.ok stored, tree) ∧
      files.save file config tree.root = (.ok (), after) := by
  obtain ⟨plan, hplan, hsteps⟩ := run_eq_of_status h hstatus
  rw [plan_eq hconfig hload] at hplan
  obtain ⟨value, hvalue, hplan⟩ := exists_of_bind_eq_ok hplan
  rcases hset : (Tree.mk root (some config.maxPathLength.toNat)).set path value with ⟨outcome, tree⟩
  rw [hset] at hplan
  obtain ⟨stored, hstored, hplan⟩ := exists_of_bind_eq_ok hplan
  obtain ⟨steps, hsaving, hplan⟩ := exists_of_bind_eq_ok hplan
  cases hplan
  exact ⟨value, stored, tree, eq_ok_of_mapError hvalue, by rw [hset, eq_ok_of_mapError hstored],
    save_of_saving hsaving hsteps⟩

/-- Storing a value succeeds when each stage does. -/
theorem run_set (hconfig : (Invocation.mk options file (.set path text)).config files home =
      .ok config)
    (hload : files.load file = .ok root) (hvalue : Format.json.load text = .ok value) {tree : Tree}
    (hset : (Tree.mk root (some config.maxPathLength.toNat)).set path value = (.ok stored, tree))
    (hsave : files.save file config tree.root = (.ok (), after)) :
    (Invocation.mk options file (.set path text)).run files home =
      (⟨0, shown config stored, none⟩, after) := by
  obtain ⟨steps, hsaving, hrun⟩ := saving_of_save hsave
  have hplan := plan_set hconfig hload rfl hvalue hset
  rw [hsaving] at hplan
  rw [run, hplan]
  simp only [Except.map, hrun]

/-! ## Showing a value -/

/-- A value that is there is shown, and no file is changed. -/
theorem run_get (hconfig : (Invocation.mk options file (.get path)).config files home = .ok config)
    (hload : files.load file = .ok root)
    (hget : (Tree.mk root (some config.maxPathLength.toNat)).get path = .ok (some value)) :
    (Invocation.mk options file (.get path)).run files home =
      (⟨0, shown config value, none⟩, files) := by
  apply run_of_plan_nil
  rw [plan_eq hconfig hload]
  simp only [planCommand, hget, Except.mapError, bind, Except.bind, pure, Except.pure,
    Option.getD_some]

end Invocation

end TreePath

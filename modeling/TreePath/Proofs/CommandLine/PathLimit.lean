import TreePath.Proofs.CommandLine.Run
import TreePath.Proofs.Navigation.LastSegment
import TreePath.Proofs.Template
import TreePath.Proofs.Tree.Refinement

/-!
# Where the limit on path texts applies

The settings have a limit on the length of path texts.  A command that reads, stores or removes a value
goes through a tree with this limit, so a text beyond the limit ends it before anything is done
(`run_of_long_path`).  Filling a template reads the document without the limit: the texts of a
template are read as paths whatever their length, and the error of a text that is too long never
arises (`isTooLong_of_fill`).
-/

set_option autoImplicit false

namespace TreePath

/-! ## The error -/

/-- The error says that a text is too long. -/
def PathError.isTooLong : PathError → Bool
  | pathTooLong _ _ => true
  | _ => false

section Reading

variable {token text : String} {e : PathError} {node root : Node} {segment : Segment} {path : Path}

/-- A number that is misspelt is no text that is too long. -/
theorem Segment.isTooLong_readNumber {chars : List Char} (h : readNumber token chars = .error e) :
    e.isTooLong = false := by
  rw [readNumber] at h
  split at h
  · cases h
  · cases h
    rfl

/-- The same goes for a bound of a slice. -/
theorem Segment.isTooLong_readBound {chars : List Char} (h : readBound token chars = .error e) :
    e.isTooLong = false := by
  rw [readBound] at h
  split at h
  · cases h
  · rcases bind_eq_error h with hnumber | ⟨bound, -, h⟩
    · exact isTooLong_readNumber hnumber
    · cases h

/-- Brackets with too many or misspelt parts are refused for what stands in them, and not for their
length. -/
theorem Segment.isTooLong_ofParts {parts : List (List Char)} (h : ofParts token parts = .error e) :
    e.isTooLong = false := by
  unfold ofParts at h
  split at h
  next position =>
    rcases bind_eq_error h with hnumber | ⟨i, -, h⟩
    · exact isTooLong_readNumber hnumber
    · cases h
  next start stop =>
    rcases bind_eq_error h with hstart | ⟨first, -, h⟩
    · exact isTooLong_readBound hstart
    · rcases bind_eq_error h with hstop | ⟨second, -, h⟩
      · exact isTooLong_readBound hstop
      · cases h
  next start stop step =>
    rcases bind_eq_error h with hstep | ⟨width, -, h⟩
    · exact isTooLong_readBound hstep
    · simp only at h
      split at h
      · cases h
        rfl
      · rcases bind_eq_error h with hstart | ⟨first, -, h⟩
        · exact isTooLong_readBound hstart
        · rcases bind_eq_error h with hstop | ⟨second, -, h⟩
          · exact isTooLong_readBound hstop
          · cases h
  next =>
    cases h
    rfl

/-- No error of a single token is about the length of the whole text. -/
theorem Segment.isTooLong_ofToken (h : ofToken token = .error e) : e.isTooLong = false := by
  rw [ofToken] at h
  split at h
  · cases h
  · split at h
    · exact isTooLong_ofParts h
    · cases h

/-- The path reader itself knows no limit, so its error is that of one of the tokens. -/
theorem Path.isTooLong_parse (h : parse text = .error e) : e.isTooLong = false := by
  obtain ⟨token, -, htoken⟩ := exists_of_mapM_eq_error h
  exact Segment.isTooLong_ofToken htoken

/-- Going down by one segment fails for the shape or the size of the node. -/
theorem Node.isTooLong_position (h : node.position segment = .error e) : e.isTooLong = false := by
  have hindex : ∀ (i : Int64) (length : Nat) (found : Kind),
      (resolveIndex i length found).map some = .error e → e.isTooLong = false := by
    intro i length found hmap
    rw [resolveIndex] at hmap
    generalize (if i < 0 then i + Int64.ofNat length else i) = resolved at hmap
    by_cases hrange : 0 ≤ resolved ∧ resolved.toInt.toNat < length
    · rw [if_pos hrange] at hmap
      cases hmap
    · rw [if_neg hrange] at hmap
      cases hmap
      rfl
  unfold position at h
  split at h
  · cases h
  · exact hindex _ _ _ h
  · exact hindex _ _ _ h
  · unfold noBranch at h
    split at h <;>
    · cases h
      rfl
  · cases h
    rfl

/-- The last segment of a read fails for the shape or the size of the node, too. -/
theorem Node.isTooLong_readLast (h : node.readLast segment = .error e) : e.isTooLong = false := by
  cases landing node segment with
  | root =>
    rw [readLast_root] at h
    cases h
  | key entries name => cases h
  | entry hindex hentry =>
    rw [readLast_entry hindex hentry] at h
    cases h
  | item hindex hitem =>
    rw [readLast_item hindex hitem] at h
    cases h
  | entries entries range => cases h
  | items items range => cases h
  | misfit hsegment hposition hread hmutate =>
    rw [hread] at h
    cases h
    exact isTooLong_position hposition

/-- A read fails at one of its segments, by induction on the path. -/
theorem Node.isTooLong_read (h : root.read path = .error e) : e.isTooLong = false := by
  fun_induction Node.read root path with
  | case1 => cases h
  | case2 node segment => exact isTooLong_readLast h
  | case3 node rest hrest ih => exact ih h
  | case4 node segment rest hroot hrest fault hposition =>
    cases h
    exact isTooLong_position hposition
  | case5 => cases h
  | case6 node segment rest hroot hrest position hposition child hchild ih => exact ih h
  | case7 => cases h

/-- A text that is read as a path without a tree around it is never too long: only a `Tree` has a
limit. -/
theorem Node.isTooLong_readText (h : root.readText text = .error e) : e.isTooLong = false := by
  rcases bind_eq_error h with hparse | ⟨path, -, hread⟩
  · exact Path.isTooLong_parse hparse
  · exact isTooLong_read hread

end Reading

/-! ## Templates -/

namespace Template

variable {template data filled : Node} {e : PathError}

/-- The texts of a template that are read as paths: the template itself when it is a string, and its
placeholders when it is not. -/
def paths : Node → List String
  | .scalar (.string text) => [text]
  | template => placeholders template

/-- Filling fails with the first of these texts that cannot be read. -/
theorem failure?_fill (template data : Node) :
    failure? (fill template data) = firstFailure data (paths template) := by
  fun_cases fill template data with
  | case1 text =>
    rw [failure?_lookup, paths, firstFailure, List.findSome?_singleton]
  | case2 =>
    rename_i htext
    rw [failure?_substitute]
    fun_cases paths template with
    | case1 text => exact absurd rfl (htext text)
    | case2 => rfl

/-- A template is filled when each of its texts can be read, be something there or not. -/
theorem exists_fill (h : ∀ path ∈ paths template, ∃ found, data.readText path = .ok found) :
    ∃ filled, fill template data = .ok filled := by
  rw [← failure?_eq_none_iff, failure?_fill, firstFailure, List.findSome?_eq_none_iff]
  intro path hpath
  exact failure?_eq_none_iff.mpr (h path hpath)

/-- **Filling never finds a text too long.** -/
theorem isTooLong_of_fill (h : fill template data = .error e) : e.isTooLong = false := by
  rw [← failure?_eq_some_iff, failure?_fill, firstFailure] at h
  obtain ⟨path, -, hpath⟩ := List.exists_of_findSome?_eq_some h
  exact Node.isTooLong_readText (failure?_eq_some_iff.mp hpath)

end Template

/-! ## Commands -/

/-- The path texts that a command reads in the document; the command that stores a value reads its
path only when the value is JSON. -/
def Command.paths : Command → List String
  | get path => [path]
  | set path value =>
    match Format.json.load value with
    | .ok _ => [path]
    | .error _ => []
  | delete path => [path]
  | rewrite template =>
    match Format.json.load template with
    | .ok template => Template.paths template
    | .error _ => []

/-- The command fills a template. -/
def Command.isRewrite : Command → Bool
  | rewrite _ => true
  | _ => false

namespace Invocation

variable {files : FileSystem} {home : String} {config : Config} {root : Node} {path : String}
  {invocation : Invocation}

/-- **A text beyond the limit ends a command** that reads, stores or removes a value. -/
theorem run_of_long_path (hconfig : invocation.config files home = .ok config)
    (hload : files.load invocation.file = .ok root) (hpath : path ∈ invocation.command.paths)
    (hlong : config.maxPathLength.toNat < path.utf8ByteSize)
    (hcommand : invocation.command.isRewrite = false) :
    invocation.run files home =
      (⟨1, "", some (PathError.pathTooLong path.utf8ByteSize config.maxPathLength.toNat).message⟩,
        files) := by
  have hparse : (Tree.mk root (some config.maxPathLength.toNat)).parse path = _ :=
    Tree.parse_of_long rfl hlong
  apply run_of_plan_error (e := .path (.pathTooLong path.utf8ByteSize config.maxPathLength.toNat))
  rw [plan_eq hconfig hload]
  cases hkind : invocation.command with
  | get text =>
    rw [hkind, Command.paths, List.mem_singleton] at hpath
    subst hpath
    rw [planCommand, Tree.get, hparse]
    rfl
  | set text value =>
    rw [hkind, Command.paths] at hpath
    split at hpath
    next tree hvalue =>
      rw [List.mem_singleton] at hpath
      subst hpath
      simp only [planCommand, hvalue, Except.mapError, bind, Except.bind, Tree.set, hparse]
    next => cases hpath
  | delete text =>
    rw [hkind, Command.paths, List.mem_singleton] at hpath
    subst hpath
    rw [planCommand, Tree.delete, hparse]
    rfl
  | rewrite template =>
    rw [hkind] at hcommand
    cases hcommand

/-- A command that fills a template changes no file, and no text is too long for it. -/
theorem run_rewrite {text : String} (hconfig : invocation.config files home = .ok config)
    (hload : files.load invocation.file = .ok root) (hcommand : invocation.command = .rewrite text) :
    (invocation.run files home).2 = files ∧
      ∀ e, invocation.plan files home = .error (.path e) → e.isTooLong = false := by
  have hplan := plan_eq hconfig hload
  rw [hcommand, planCommand] at hplan
  cases htemplate : Format.json.load text with
  | error fault =>
    rw [htemplate] at hplan
    refine ⟨by rw [run_of_plan_error hplan], ?_⟩
    intro e he
    rw [hplan] at he
    cases he
  | ok template =>
    cases hfill : Template.fill template root with
    | error fault =>
      simp only [htemplate, Except.mapError, bind, Except.bind, hfill] at hplan
      refine ⟨by rw [run_of_plan_error hplan], ?_⟩
      intro e he
      rw [hplan] at he
      cases he
      exact Template.isTooLong_of_fill hfill
    | ok filled =>
      simp only [htemplate, Except.mapError, bind, Except.bind, hfill, pure, Except.pure] at hplan
      refine ⟨by rw [run_of_plan_nil hplan], ?_⟩
      intro e he
      rw [hplan] at he
      cases he

/-- A template whose texts can all be read is filled, and the command shows it and changes no file. -/
theorem run_rewrite_of_readable {text : String} {template : Node}
    (hconfig : invocation.config files home = .ok config)
    (hload : files.load invocation.file = .ok root) (hcommand : invocation.command = .rewrite text)
    (htemplate : Format.json.load text = .ok template)
    (hreadable : ∀ path ∈ invocation.command.paths, ∃ found, root.readText path = .ok found) :
    ∃ filled, Template.fill template root = .ok filled ∧
      invocation.run files home = (⟨0, shown config filled, none⟩, files) := by
  rw [hcommand, Command.paths, htemplate] at hreadable
  obtain ⟨filled, hfilled⟩ := Template.exists_fill hreadable
  refine ⟨filled, hfilled, run_of_plan_nil ?_⟩
  rw [plan_eq hconfig hload, hcommand]
  simp only [planCommand, htemplate, Except.mapError, bind, Except.bind, hfilled, pure, Except.pure]

/-- **The limit on path texts covers every command but the one that fills templates.**  Where a
command reads, stores or removes a value, a path beyond the limit ends it with the error that says so,
and no file is changed.  Filling a template changes no file either, but it reads the paths of the
template whatever their length: it never fails because one is too long, and as soon as each of them
can be read it succeeds and shows the filled template, as JSON in the style of the settings and with a
line break behind it. -/
theorem path_limit_of_commands (hconfig : invocation.config files home = .ok config)
    (hload : files.load invocation.file = .ok root) :
    (invocation.command.isRewrite = false →
      ∀ path ∈ invocation.command.paths, config.maxPathLength.toNat < path.utf8ByteSize →
        invocation.run files home =
          (⟨1, "", some (PathError.pathTooLong path.utf8ByteSize
            config.maxPathLength.toNat).message⟩, files)) ∧
    ∀ text, invocation.command = .rewrite text →
      (invocation.run files home).2 = files ∧
      (∀ e, invocation.plan files home = .error (.path e) → e.isTooLong = false) ∧
      ∀ template, Format.json.load text = .ok template →
        (∀ path ∈ invocation.command.paths, ∃ found, root.readText path = .ok found) →
        ∃ filled, Template.fill template root = .ok filled ∧
          invocation.run files home =
            (⟨0, Json.render config.style filled ++ "\n", none⟩, files) := by
  constructor
  · intro hcommand path hpath hlong
    exact run_of_long_path hconfig hload hpath hlong hcommand
  · intro text hcommand
    obtain ⟨hfiles, hnever⟩ := run_rewrite hconfig hload hcommand
    exact ⟨hfiles, hnever, fun template => run_rewrite_of_readable hconfig hload hcommand⟩

/-- A document with one entry and settings that allow path texts of two bytes. -/
def shortPaths : FileSystem where
  items := [(["home"], .directory), (["home", "d.json"], .file [123, 34, 97, 34, 58, 91, 93, 125]),
    (["home", "c.toml"], .file (Utf8.encode "max_path_len = 2\n"))]
  working := ["home"]

/-- A path of three bytes is refused where it is read, and filled in where it stands in a
template. -/
theorem path_limit_of_commands_sample :
    (Invocation.mk { settings := some "c.toml" } "d.json" (.get "$.a")).run shortPaths "" =
        (⟨1, "", some "Path is 3 bytes long, limit is 2"⟩, shortPaths) ∧
      (Invocation.mk { settings := some "c.toml" } "d.json" (.rewrite "\"$.a\"")).run shortPaths "" =
        (⟨0, "[]\n", none⟩, shortPaths) := by
  have hconfig : ∀ command, (Invocation.mk { settings := some "c.toml" } "d.json" command).config
      shortPaths "" = .ok { maxPathLength := 2 } := fun _ => rfl
  have hload : shortPaths.load "d.json" = .ok (.singleton "a" (.sequence [])) := rfl
  have htemplate : Format.json.load "\"$.a\"" = .ok (.ofString "$.a") := rfl
  have hget := path_limit_of_commands (hconfig (.get "$.a")) hload
  have hrewrite := path_limit_of_commands (hconfig (.rewrite "\"$.a\"")) hload
  refine ⟨hget.1 rfl "$.a" (by simp [Command.paths]) (by decide), ?_⟩
  have hreadable : ∀ path ∈ (Command.rewrite "\"$.a\"").paths,
      ∃ found, (Node.singleton "a" (.sequence [])).readText path = .ok found := by
    intro path hpath
    simp only [Command.paths, htemplate, Node.ofString, Template.paths, List.mem_singleton] at hpath
    subst hpath
    exact ⟨some (.sequence []), rfl⟩
  obtain ⟨filled, hfilled, hrun⟩ := (hrewrite.2 _ rfl).2.2 (.ofString "$.a") htemplate hreadable
  have hvalue : Template.fill (.ofString "$.a") (.singleton "a" (.sequence [])) =
      .ok (.sequence []) := rfl
  obtain rfl : .sequence [] = filled := Except.ok.inj (hvalue.symm.trans hfilled)
  have hshown : Json.render (Config.style { maxPathLength := 2 }) (.sequence []) ++ "\n" =
      "[]\n" := by decide +kernel
  rw [hrun, hshown]

end Invocation

end TreePath

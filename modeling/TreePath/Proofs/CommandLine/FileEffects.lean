import TreePath.Proofs.CommandLine.Run
import TreePath.Proofs.Json.RoundTrip
import TreePath.Proofs.Navigation.Scaffolding
import TreePath.Proofs.Tree.Runs

/-!
# What commands do to files

What a command can do to files is known from its plan: it fails, or it shows something and changes
no file, or it ends by saving a document, which only storing and removing a value do.  So whatever
fails in front of the saving leaves every file, also a write that has already made mappings in the tree
on its way.  The disk may refuse any step of the saving; then the target is left
(`find?_of_attempt`).  `FileEffects` collects what holds of every command, and `file_effects` says it
of every command line.
-/

set_option autoImplicit false

namespace TreePath

namespace Tree

variable {tree : Tree} {text : String}

/-- Removing what reads as absent gives nothing back and leaves the tree as it is, since a removal
stops where the read finds the first absent name. -/
theorem delete_of_get_none (h : tree.get text = .ok none) : tree.delete text = (.ok none, tree) := by
  rw [get] at h
  cases hparse : tree.parse text with
  | error e =>
    rw [hparse] at h
    cases h
  | ok path =>
    rw [hparse] at h
    obtain ⟨front, name, back, address, entries, habsent⟩ := Node.firstAbsent_of_read_none h
    rw [delete_of_parse hparse, habsent.delete]
    rfl

end Tree

namespace Invocation

variable {files after : FileSystem} {home output : String} {config : Config}
  {new value : Node} {invocation : Invocation} {refusal : Option Nat} {report : Report}

/-! ## Commands on a disk that may refuse -/

/-- Runs a command on a disk that may refuse a step. -/
def attempt (refusal : Option Nat) (invocation : Invocation) (files : FileSystem) (home : String) :
    Report × FileSystem :=
  match invocation.plan files home with
  | .error e => (⟨1, "", some e.message⟩, files)
  | .ok plan =>
    match FileSystem.performUpTo refusal plan.steps files with
    | (.ok (), files) => (⟨0, plan.output, none⟩, files)
    | (.error e, files) => (⟨1, "", some e.message⟩, files)

/-- On a disk that refuses nothing a command runs as usual. -/
theorem attempt_none (invocation : Invocation) (files : FileSystem) (home : String) :
    invocation.attempt none files home = invocation.run files home := by
  rw [attempt, run]
  cases invocation.plan files home with
  | error e => rfl
  | ok plan =>
    rcases hsteps : FileSystem.performAll plan.steps files with ⟨_ | _, after⟩
    · simp only [FileSystem.performUpTo_none, hsteps]
    · simp only [FileSystem.performUpTo_none, hsteps]

/-- A command without a plan ends with status 1 and the message of its error, and no file is touched.
-/
theorem attempt_of_plan_error {error : CommandError}
    (h : invocation.plan files home = .error error) :
    invocation.attempt refusal files home = (⟨1, "", some error.message⟩, files) := by
  rw [attempt, h]

/-- A plan without steps cannot be refused: the command shows its output and leaves the files. -/
theorem attempt_of_plan_nil (h : invocation.plan files home = .ok ⟨[], output⟩) :
    invocation.attempt refusal files home = (⟨0, output, none⟩, files) := by
  rw [attempt, h]
  rfl

/-- A command whose plan is to save a document succeeds or fails as the attempt to save it does, and
the files afterwards are those of the attempt. -/
theorem attempt_of_saving (h : invocation.plan files home =
      (saving files invocation.file config new).map fun steps => ⟨steps, output⟩) :
    invocation.attempt refusal files home =
      match files.attempt ⟨invocation.file, config, new, refusal⟩ with
      | (.ok (), after) => (⟨0, output, none⟩, after)
      | (.error e, after) => (⟨1, "", some e.message⟩, after) := by
  rw [attempt, h, saving, FileSystem.attempt]
  cases files.savePlan invocation.file config new with
  | error fault => rfl
  | ok steps =>
    simp only [Except.map]
    rw [FileSystem.performUpTo_map]
    rcases FileSystem.performUpTo refusal steps files with ⟨_ | _, next⟩ <;> rfl

/-- **A command leaves the files, or it tries once to save its document** and fares as this does. -/
theorem attempt_cases (h : invocation.attempt refusal files home = (report, after)) :
    after = files ∨
      invocation.command.saves ∧ ∃ request result, request.name = invocation.file ∧
        files.attempt request = (result, after) ∧ (report.status ≠ 0 → ∃ e, result = .error e) := by
  rcases plan_cases invocation files home with
    ⟨error, hplan⟩ | ⟨output, hplan⟩ | ⟨hsaves, config, new, output, hplan⟩
  · rw [attempt_of_plan_error hplan] at h
    cases h
    exact .inl rfl
  · rw [attempt_of_plan_nil hplan] at h
    cases h
    exact .inl rfl
  · refine .inr ⟨hsaves, ⟨invocation.file, config, new, refusal⟩, ?_⟩
    rw [attempt_of_saving hplan] at h
    rcases hsave : files.attempt ⟨invocation.file, config, new, refusal⟩ with ⟨e | _, next⟩
    · rw [hsave] at h
      cases h
      exact ⟨.error e, rfl, rfl, fun _ => ⟨e, rfl⟩⟩
    · rw [hsave] at h
      cases h
      exact ⟨.ok (), rfl, rfl, fun hstatus => absurd rfl hstatus⟩

/-- A command that does not succeed leaves its document, because the only steps of a plan are those of
one save. -/
theorem find?_of_attempt (h : invocation.attempt refusal files home = (report, after))
    (hstatus : report.status ≠ 0) :
    after.find? invocation.file = files.find? invocation.file := by
  rcases attempt_cases h with rfl | ⟨-, request, result, hname, hsave, hresult⟩
  · rfl
  · obtain ⟨e, rfl⟩ := hresult hstatus
    rw [← hname]
    exact FileSystem.find?_of_attempt_error hsave

/-- A command that does not save leaves the whole file system as it was. -/
theorem eq_of_attempt_of_not_saves (h : invocation.attempt refusal files home = (report, after))
    (hcommand : invocation.command.saves = false) : after = files := by
  rcases attempt_cases h with heq | ⟨hsaves, -⟩
  · exact heq
  · rw [hcommand] at hsaves
    cases hsaves

/-- A command that shows a value has tried to save a document: it succeeds when the saving does, and
only with the document in place and the value shown, as JSON in the style of the settings and with a
line break behind it. -/
structure Saved (files after : FileSystem) (report : Report) (request : SaveRequest)
    (value : Node) : Prop where
  succeeds : (files.attempt request).1 = .ok () → report.status = 0
  document : report.status = 0 → after.HoldsDocument request.name request.config request.node
  output : report.status = 0 → report.output = Json.render request.config.style value ++ "\n"

/-- A command whose plan is to save a document and to show a value has tried to save it. -/
theorem saved_of_attempt (hplan : invocation.plan files home =
      (saving files invocation.file config new).map fun steps => ⟨steps, shown config value⟩)
    (h : invocation.attempt refusal files home = (report, after)) :
    Saved files after report ⟨invocation.file, config, new, refusal⟩ value := by
  rw [attempt_of_saving hplan] at h
  rcases hsave : files.attempt ⟨invocation.file, config, new, refusal⟩ with ⟨e | _, next⟩
  · rw [hsave] at h
    cases h
    constructor
    case succeeds =>
      rw [hsave]
      intro hok
      cases hok
    case document =>
      intro hstatus
      cases hstatus
    case output =>
      intro hstatus
      cases hstatus
  · rw [hsave] at h
    cases h
    constructor
    case succeeds => exact fun _ => rfl
    case document => exact fun _ => (FileSystem.fulfilled_of_attempt hsave).document
    case output => exact fun _ => rfl

/-- What a command does to files, given its report and the files after it. -/
structure FileEffects (refusal : Option Nat) (invocation : Invocation) (files : FileSystem)
    (home : String) (report : Report) (after : FileSystem) : Prop where
  /-- showing a value and filling a template change nothing -/
  showing : invocation.command.saves = false → after = files
  /-- without settings or without a document nothing is changed -/
  unloaded : (∀ config root, invocation.config files home = .ok config →
    files.load invocation.file ≠ .ok root) → report.status = 1 ∧ after = files
  /-- a value to store that is no JSON changes nothing -/
  noValue : ∀ path text fault, invocation.command = .set path text →
    Format.json.load text = .error fault → report.status = 1 ∧ after = files
  /-- a value that cannot be stored changes nothing, whatever it left in the tree -/
  notStored : ∀ config root path text value e left, invocation.command = .set path text →
    invocation.config files home = .ok config → files.load invocation.file = .ok root →
    Format.json.load text = .ok value → (config.tree root).set path value = (.error e, left) →
    report.status = 1 ∧ after = files
  /-- a path that cannot be removed changes nothing -/
  notRemoved : ∀ config root path e left, invocation.command = .delete path →
    invocation.config files home = .ok config → files.load invocation.file = .ok root →
    (config.tree root).delete path = (.error e, left) → report.status = 1 ∧ after = files
  /-- removing what is not there succeeds and changes nothing -/
  absent : ∀ config root path, invocation.command = .delete path →
    invocation.config files home = .ok config → files.load invocation.file = .ok root →
    (config.tree root).get path = .ok none → report = ⟨0, "null\n", none⟩ ∧ after = files
  /-- a command that fails in any way leaves the document -/
  kept : report.status ≠ 0 → after.find? invocation.file = files.find? invocation.file
  /-- a value is stored by saving the document with it -/
  stored : ∀ config root path text value stored tree, invocation.command = .set path text →
    invocation.config files home = .ok config → files.load invocation.file = .ok root →
    Format.json.load text = .ok value → (config.tree root).set path value = (.ok stored, tree) →
    Saved files after report ⟨invocation.file, config, tree.root, refusal⟩ stored
  /-- a value is removed by saving the document without it -/
  removed : ∀ config root path value rest, invocation.command = .delete path →
    invocation.config files home = .ok config → files.load invocation.file = .ok root →
    (config.tree root).delete path = (.ok (some value), rest) →
    Saved files after report ⟨invocation.file, config, rest.root, refusal⟩ value

/-- **Every command has these effects**, also on a disk that refuses a step of the saving. -/
theorem effects_of_attempt (h : invocation.attempt refusal files home = (report, after)) :
    FileEffects refusal invocation files home report after := by
  have hfails {error : CommandError} (hplan : invocation.plan files home = .error error) :
      report.status = 1 ∧ after = files := by
    rw [attempt_of_plan_error hplan] at h
    cases h
    exact ⟨rfl, rfl⟩
  constructor
  case showing => exact eq_of_attempt_of_not_saves h
  case unloaded =>
    intro hnothing
    cases hconfig : invocation.config files home with
    | error fault => exact hfails (plan_of_config_error hconfig)
    | ok config =>
      cases hload : files.load invocation.file with
      | error fault => exact hfails (plan_of_load_error hconfig hload)
      | ok root => exact absurd hload (hnothing config root hconfig)
  case noValue =>
    intro path text fault hcommand hvalue
    cases hconfig : invocation.config files home with
    | error fault => exact hfails (plan_of_config_error hconfig)
    | ok config =>
      cases hload : files.load invocation.file with
      | error fault => exact hfails (plan_of_load_error hconfig hload)
      | ok root => exact hfails (plan_set_of_value_error hconfig hload hcommand hvalue)
  case notStored =>
    intro config root path text value e left hcommand hconfig hload hvalue hset
    exact hfails (plan_set_of_error hconfig hload hcommand hvalue hset)
  case notRemoved =>
    intro config root path e left hcommand hconfig hload hdelete
    exact hfails (plan_delete_of_error hconfig hload hcommand hdelete)
  case absent =>
    intro config root path hcommand hconfig hload hget
    have hdelete := Tree.delete_of_get_none hget
    rw [attempt_of_plan_nil (plan_delete_of_none hconfig hload hcommand hdelete)] at h
    cases h
    exact ⟨rfl, rfl⟩
  case kept => exact find?_of_attempt h
  case stored =>
    intro config root path text value stored tree hcommand hconfig hload hvalue hset
    exact saved_of_attempt (plan_set hconfig hload hcommand hvalue hset) h
  case removed =>
    intro config root path value rest hcommand hconfig hload hdelete
    exact saved_of_attempt (plan_delete hconfig hload hcommand hdelete) h

end Invocation

namespace Request

/-- Answers a command line on a disk that may refuse a step. -/
def attempt (refusal : Option Nat) (files : FileSystem) (home : String) :
    Request → Report × FileSystem
  | .run invocation => invocation.attempt refusal files home
  | request => request.respond files home

/-- On a disk that refuses nothing every command line is answered as usual. -/
theorem attempt_none (request : Request) (files : FileSystem) (home : String) :
    request.attempt none files home = request.respond files home := by
  cases request with
  | run invocation => exact invocation.attempt_none files home
  | help => rfl
  | version => rfl
  | misuse => rfl

/-- **What a command line does to files.**  Whatever the files, the settings and the words are, and
whichever step of a saving the disk refuses: only storing and removing a value change files, a failure
in front of the saving changes none, a failure of the saving leaves the document, removing what is not
there shows null and changes no file, and storing a value or removing one that is there succeeds only
with the changed document saved.  Words that are no command change nothing. -/
theorem file_effects (files : FileSystem) (home : String) (words : List String) :
    (ofWords words).attempt none files home = (ofWords words).respond files home ∧
    ∀ refusal report after, (ofWords words).attempt refusal files home = (report, after) →
      (∀ invocation, ofWords words = .run invocation →
        invocation.FileEffects refusal files home report after) ∧
      ((∀ invocation, ofWords words ≠ .run invocation) → after = files) := by
  refine ⟨attempt_none _ files home, ?_⟩
  intro refusal report after h
  constructor
  · intro invocation hrequest
    rw [hrequest] at h
    exact Invocation.effects_of_attempt h
  · intro hno
    generalize ofWords words = request at h hno
    cases request with
    | run invocation => exact absurd rfl (hno invocation)
    | _ =>
      cases h
      rfl

/-- A working directory with a document of two entries. -/
def twoEntries : FileSystem where
  items := [(["home"], .directory),
    (["home", "d.json"], .file (Utf8.encode "\x7b\"a\":[true],\"b\":1\x7d"))]
  working := ["home"]

/-- The tree of this document. -/
def twoEntriesTree : Node := .mapping [("a", .sequence [.ofBool true]), ("b", .ofInt64 1)]

/-- The document is the text of the tree on one line, so it is loaded as the tree. -/
theorem load_twoEntries : twoEntries.load "d.json" = .ok twoEntriesTree := by
  have hfile : twoEntries.read? "d.json" =
      some (Utf8.encode "\x7b\"a\":[true],\"b\":1\x7d") := rfl
  have htext : twoEntries.documentText "d.json" = .ok "\x7b\"a\":[true],\"b\":1\x7d" := by
    rw [FileSystem.documentText, if_neg (by decide), FileSystem.readText?, hfile, Option.bind_some,
      Utf8.decode?_encode]
  have hdistinct : twoEntriesTree.Distinct := by
    simp [twoEntriesTree, Node.ofInt64, Node.ofBool, Entries.Distinct, Entries.keys]
  have hfloat : twoEntriesTree.FloatFree := by
    simp [twoEntriesTree, Node.ofInt64, Node.ofBool]
  have hprinted : String.ofList (Json.nodeChars .compact 0 twoEntriesTree ++ []) =
      "\x7b\"a\":[true],\"b\":1\x7d" := by decide +kernel
  have hjson := Format.load_nodeChars hdistinct hfloat .compact [] (.inl rfl)
  rw [hprinted, if_pos (by decide)] at hjson
  have hformat : Format.ofName "d.json" = .json := rfl
  rw [FileSystem.load, htext, hformat]
  simp only [bind, Except.bind, Format.loadText, hjson]
  rfl

/-- Nothing is there to be removed; a write fails that has made mappings on its way; the disk refuses
the first step of a removal; a removal succeeds, and shows what it has removed; and a value is stored
without line breaks. -/
theorem file_effects_sample :
    (ofWords ["delete", "d.json", "c"]).attempt none twoEntries "" =
        (⟨0, "null\n", none⟩, twoEntries) ∧
      ((Config.tree {} twoEntriesTree).set "c.d[0]" (.ofInt64 2)).2.root =
        .mapping [("a", .sequence [.ofBool true]), ("b", .ofInt64 1),
          ("c", .singleton "d" .emptyMapping)] ∧
      ((ofWords ["set", "d.json", "c.d[0]", "2"]).attempt none twoEntries "").2 = twoEntries ∧
      ((ofWords ["delete", "d.json", "a"]).attempt (some 0) twoEntries "").2.find? "d.json" =
        twoEntries.find? "d.json" ∧
      ((ofWords ["delete", "d.json", "a"]).attempt none twoEntries "").1.output =
        "[\n  true\n]\n" ∧
      ((ofWords ["delete", "d.json", "a"]).attempt none twoEntries "").2.read? "d.json" =
        some (Utf8.encode "\x7b\n  \"b\": 1\n\x7d\n") ∧
      ((ofWords ["--compact", "set", "d.json", "b", "2"]).attempt none twoEntries "").2.read?
          "d.json" =
        some (Utf8.encode "\x7b\"a\":[true],\"b\":2\x7d\n") := by
  have hnothing : ofWords ["delete", "d.json", "c"] = .run ⟨{}, "d.json", .delete "c"⟩ := by
    decide +kernel
  have hwrite : ofWords ["set", "d.json", "c.d[0]", "2"] =
      .run ⟨{}, "d.json", .set "c.d[0]" "2"⟩ := by decide +kernel
  have hremoval : ofWords ["delete", "d.json", "a"] = .run ⟨{}, "d.json", .delete "a"⟩ := by
    decide +kernel
  have hcompact : ofWords ["--compact", "set", "d.json", "b", "2"] =
      .run ⟨{ compact := true }, "d.json", .set "b" "2"⟩ := by decide +kernel
  have heffects (words : List String) (refusal : Option Nat) : ∀ invocation,
      ofWords words = .run invocation → invocation.FileEffects refusal twoEntries ""
        ((ofWords words).attempt refusal twoEntries "").1
        ((ofWords words).attempt refusal twoEntries "").2 :=
    ((file_effects twoEntries "" words).2 refusal _ _ rfl).1
  have hremoved := (heffects _ none _ hremoval).removed {} _ "a" (.sequence [.ofBool true])
    (Config.tree {} (.singleton "b" (.ofInt64 1))) rfl rfl load_twoEntries rfl
  have hstored := (heffects _ none _ hcompact).stored { pretty := false } _ "b" "2" (.ofInt64 2)
    (.ofInt64 1) (Config.tree { pretty := false }
      (.mapping [("a", .sequence [.ofBool true]), ("b", .ofInt64 2)])) rfl rfl load_twoEntries rfl rfl
  -- The text of the tree that is left, and that of the tree with the new value.
  have hleft : (Format.ofName "d.json").render {} (.singleton "b" (.ofInt64 1)) =
      "\x7b\n  \"b\": 1\n\x7d" := by decide +kernel
  have hnew : (Format.ofName "d.json").render { pretty := false }
      (.mapping [("a", .sequence [.ofBool true]), ("b", .ofInt64 2)]) =
      "\x7b\"a\":[true],\"b\":2\x7d" := by decide +kernel
  have hread := (hremoved.document (hremoved.succeeds rfl)).read?_of_unended (by decide) hleft
    (by decide)
  have hwritten := (hstored.document (hstored.succeeds rfl)).read?_of_unended (by decide) hnew
    (by decide)
  refine ⟨?_, rfl, ?_, ?_, ?_, hread, hwritten⟩
  · obtain ⟨hreport, hafter⟩ := (heffects _ none _ hnothing).absent {} _ "c" rfl rfl load_twoEntries
      rfl
    exact Prod.ext hreport hafter
  · exact ((heffects _ none _ hwrite).notStored {} _ "c.d[0]" "2" (.ofInt64 2) _ _ rfl rfl
      load_twoEntries rfl rfl).2
  · exact (heffects _ (some 0) _ hremoval).kept (by decide +kernel)
  · have hshown : Json.render (Config.style {}) (.sequence [.ofBool true]) ++ "\n" =
        "[\n  true\n]\n" := by decide +kernel
    exact (hremoved.output (hremoved.succeeds rfl)).trans hshown

end Request

end TreePath

import TreePath.Access
import TreePath.CommandLine.Request
import TreePath.Storage.Loading
import TreePath.Storage.Saving
import TreePath.Storage.Settings
import TreePath.Template

/-!
# Running a command

A command reads settings and a document, and gives an output together with the steps that save the
changed document.  The output is shown only when all steps succeed.  A command that fails earlier has
no steps, and one that only shows a value has none either.
-/

set_option autoImplicit false

namespace TreePath

/-- Why a command failed. -/
inductive CommandError where
  | settings (error : SettingsError)
  | loading (file : String)
  /-- the value to store is no JSON -/
  | value
  /-- the template is no JSON -/
  | template
  | path (error : PathError)
  | saving (error : SaveError)

/-- The words for the error. -/
def CommandError.message : CommandError → String
  | settings error => error.message
  | loading file => "Failed to load " ++ file
  | value => "VALUE must be JSON"
  | template => "TEMPLATE must be JSON"
  | path error => error.message
  | saving error => error.message

/-- What a command does: the steps that save, and what is shown after them. -/
structure Plan where
  steps : List (FileStep × CommandError)
  output : String

/-- What can be seen of a command: its exit status, its output, and the message of an error. -/
structure Report where
  status : Nat
  output : String
  message : Option String
  deriving DecidableEq, Repr

namespace Invocation

/-- The settings of a command. -/
def config (invocation : Invocation) (files : FileSystem) (home : String) :
    Except SettingsError Config := do
  let config ←
    match invocation.options.settings with
    | some name => files.loadSettings name
    | none => .ok (files.homeSettings home)
  return if invocation.options.compact then { config with pretty := false } else config

/-- The text that shows a value. -/
def shown (config : Config) (node : Node) : String := Json.render config.style node ++ "\n"

/-- The steps that save a document in place of the old one. -/
def saving (files : FileSystem) (file : String) (config : Config) (node : Node) :
    Except CommandError (List (FileStep × CommandError)) :=
  match files.savePlan file config node with
  | .ok steps => .ok (steps.map fun (step, error) => (step, .saving error))
  | .error e => .error (.saving e)

/-- What a command does to a document. -/
def planCommand (files : FileSystem) (file : String) (config : Config) (root : Node) :
    Command → Except CommandError Plan
  | .get path => do
    let value ← ((Tree.mk root (some config.maxPathLength.toNat)).get path).mapError .path
    return ⟨[], shown config (value.getD .null)⟩
  | .set path value => do
    let value ← (Format.json.load value).mapError fun _ => CommandError.value
    let (stored, tree) := (Tree.mk root (some config.maxPathLength.toNat)).set path value
    let stored ← stored.mapError .path
    return ⟨← saving files file config tree.root, shown config stored⟩
  | .delete path => do
    let (removed, tree) := (Tree.mk root (some config.maxPathLength.toNat)).delete path
    match ← removed.mapError .path with
    | some value => return ⟨← saving files file config tree.root, shown config value⟩
    | none => return ⟨[], shown config .null⟩
  | .rewrite template => do
    let template ← (Format.json.load template).mapError fun _ => CommandError.template
    let filled ← (Template.fill template root).mapError .path
    return ⟨[], shown config filled⟩

/-- What a command does. -/
def plan (invocation : Invocation) (files : FileSystem) (home : String) :
    Except CommandError Plan := do
  let config ← (invocation.config files home).mapError .settings
  let root ← (files.load invocation.file).mapError fun _ => .loading invocation.file
  planCommand files invocation.file config root invocation.command

/-- Runs a command. -/
def run (invocation : Invocation) (files : FileSystem) (home : String) : Report × FileSystem :=
  match invocation.plan files home with
  | .error e => (⟨1, "", some e.message⟩, files)
  | .ok plan =>
    match FileSystem.performAll plan.steps files with
    | (.ok (), files) => (⟨0, plan.output, none⟩, files)
    | (.error e, files) => (⟨1, "", some e.message⟩, files)

end Invocation

namespace Request

/-- The text that explains the command line. -/
def usage : String :=
  "Read, write and delete values in JSON/YAML files by path\n\n" ++
  "Usage: pathdict [OPTIONS] <COMMAND>\n\n" ++
  "Commands:\n" ++
  "  get FILE PATH          Print the value at PATH (null when absent)\n" ++
  "  set FILE PATH VALUE    Store a JSON VALUE at PATH and save the file\n" ++
  "  delete FILE PATH       Remove the value at PATH and save the file\n" ++
  "  rewrite FILE TEMPLATE  Fill the $ placeholders of a JSON TEMPLATE from the file\n\n" ++
  "Options:\n" ++
  "  -c, --config FILE      Config file (default: ~/.config/pathdict/config.toml)\n" ++
  "      --compact          Print compact JSON\n" ++
  "  -v, --verbose          Increase log verbosity\n" ++
  "  -h, --help             Print help\n" ++
  "  -V, --version          Print version\n"

/-- The text that names the program and its version. -/
def versionText : String := "pathdict 0.2.1\n"

/-- Answers a command line. -/
def respond (files : FileSystem) (home : String) : Request → Report × FileSystem
  | .run invocation => invocation.run files home
  | .help => (⟨0, usage, none⟩, files)
  | .version => (⟨0, versionText, none⟩, files)
  | .misuse => (⟨2, "", none⟩, files)

end Request

end TreePath

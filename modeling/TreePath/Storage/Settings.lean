import TreePath.Config.Text
import TreePath.Storage.FileSystem
import TreePath.Utf8

/-!
# Files of settings

Settings are kept in a file below the home directory.  When they are not named explicitly, a file
that is missing or no settings counts for nothing, and the defaults apply.
-/

set_option autoImplicit false

namespace TreePath

/-- Why settings could not be loaded. -/
inductive SettingsError where
  | unreadable (name : String)
  | malformed
  deriving DecidableEq, Repr

/-- The words for the error. -/
def SettingsError.message : SettingsError → String
  | unreadable name => "Failed to read config file " ++ name
  | malformed => "Failed to parse config"

/-- The name of the file of settings below a home directory. -/
def settingsName (home : String) : String := home ++ "/.config/pathdict/config.toml"

namespace FileSystem

/-- Loads settings from a file. -/
def loadSettings (files : FileSystem) (name : String) : Except SettingsError Config :=
  match (files.read? name).bind Utf8.decode? with
  | none => .error (.unreadable name)
  | some text =>
    match Config.ofText? text with
    | some config => .ok config
    | none => .error .malformed

/-- The settings below a home directory, or the defaults. -/
def homeSettings (files : FileSystem) (home : String) : Config :=
  match files.loadSettings (settingsName home) with
  | .ok config => config
  | .error _ => {}

/-- Saves settings and makes the directories for them; says whether that succeeded. -/
def saveSettings (files : FileSystem) (name : String) (config : Config) : Bool × FileSystem :=
  match files.makeParent name with
  | (false, files) => (false, files)
  | (true, files) =>
    match config.toText? with
    | none => (false, files)
    | some text =>
      match files.write? name (Utf8.encode text) with
      | some files => (true, files)
      | none => (false, files)

end FileSystem

end TreePath

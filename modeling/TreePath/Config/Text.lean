import TreePath.Config
import TreePath.Toml.Reader

/-!
# Settings as text

A settings text gives some of the settings by name; the others take their defaults, and entries with
other names do not matter.  A size is an integer that is not negative.  Settings are written one on a
line, in a fixed order, unless a size is too large for an integer of the format.
-/

set_option autoImplicit false

namespace TreePath

namespace Config

/-- The size of this name, or a default when there is no entry. -/
def size? (table : Toml.Table) (name : String) (default : UInt64) : Option UInt64 :=
  match Entries.get? table name with
  | none => some default
  | some (.integer i) => if 0 ≤ i then some i.toUInt64 else none
  | some _ => none

/-- The switch of this name, or a default when there is no entry. -/
def switch? (table : Toml.Table) (name : String) (default : Bool) : Option Bool :=
  match Entries.get? table name with
  | none => some default
  | some (.boolean b) => some b
  | some _ => none

/-- The settings of a table. -/
def ofTable? (table : Toml.Table) : Option Config := do
  let base : Config := {}
  let maxPathLength ← size? table "max_path_len" base.maxPathLength
  let indentSize ← size? table "indent_size" base.indentSize
  let pretty ← switch? table "pretty" base.pretty
  let createBackup ← switch? table "create_backup" base.createBackup
  return { maxPathLength, indentSize, pretty, createBackup }

/-- Reads the settings of a text. -/
def ofText? (text : String) : Option Config := do ofTable? (← Toml.read? text)

/-- The line of a setting. -/
def line (name value : String) : String := name ++ " = " ++ value ++ "\n"

/-- The text of a switch. -/
def switchText (b : Bool) : String := if b then "true" else "false"

/-- The lines of the settings. -/
def lines (config : Config) : List String :=
  [line "max_path_len" (Decimal.integerText config.maxPathLength.toNat),
    line "indent_size" (Decimal.integerText config.indentSize.toNat),
    line "pretty" (switchText config.pretty),
    line "create_backup" (switchText config.createBackup)]

/-- Both sizes are integers of the format. -/
def hasWritableSizes (config : Config) : Bool :=
  (word? config.maxPathLength.toNat).isSome && (word? config.indentSize.toNat).isSome

/-- The text of the settings. -/
def toText? (config : Config) : Option String :=
  if config.hasWritableSizes then some (String.join config.lines) else none

end Config

end TreePath

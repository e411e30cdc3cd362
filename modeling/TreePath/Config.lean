import TreePath.Json.Printer

/-!
# Settings

The settings of the program: how long a path text may be, how JSON is laid out, and whether saving
keeps the old file.  Sizes are machine words, as a setting may hold any of them.
-/

set_option autoImplicit false

namespace TreePath

/-- The settings of the program. -/
structure Config where
  /-- the longest path text that is accepted, in bytes -/
  maxPathLength : UInt64 := 4096
  /-- the number of blanks for a level of indented JSON -/
  indentSize : UInt64 := 2
  /-- JSON is written with a line for every element -/
  pretty : Bool := true
  /-- saving keeps a copy of the file that it replaces -/
  createBackup : Bool := false
  deriving DecidableEq, Repr

namespace Config

/-- The layout of JSON under these settings. -/
def style (config : Config) : Json.Style :=
  if config.pretty then .indented config.indentSize.toNat else .compact

end Config

end TreePath
